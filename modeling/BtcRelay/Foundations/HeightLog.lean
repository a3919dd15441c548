import BtcRelay.Foundations.CircularBuffer

/-!
# Circular buffers as windows on a log

A log keeps every entry that was ever written for a height. A circular buffer shows the log
when a read of one of the last heights, one capacity of them, returns the latest entry that
the log has for it. Writing the consecutive heights after some base keeps it so if the base
is one of the heights shown and the last one written is not below them, or if one capacity
of heights is written.
-/

namespace CircularBuffer

variable {α : Type*} {capacity : ℕ}

/-- Entries for the consecutive heights after a given one. -/
def numbered : ℕ → List α → List (ℕ × α)
  | _, [] => []
  | height, entry :: entries => (height + 1, entry) :: numbered (height + 1) entries

variable {height other : ℕ} {entries : List α} {entry : α}

theorem numbered_append_singleton (last : α) : numbered height (entries ++ [last]) =
    numbered height entries ++ [(height + entries.length + 1, last)] := by
  induction entries generalizing height with
  | nil => rfl
  | cons entry rest ih =>
      have heights : height + 1 + rest.length + 1 = height + (entry :: rest).length + 1 := by
        simp only [List.length_cons]
        omega
      rw [List.cons_append, numbered, ih, numbered, heights, List.cons_append]

theorem exists_of_mem_numbered (member : (other, entry) ∈ numbered height entries) :
    ∃ i, ∃ inRange : i < entries.length, other = height + 1 + i ∧ entries[i] = entry := by
  induction entries generalizing height with
  | nil => cases member
  | cons first rest ih =>
      rcases List.mem_cons.mp member with same | later
      · cases same
        exact ⟨0, Nat.zero_lt_succ _, rfl, rfl⟩
      · rcases ih later with ⟨i, inRange, heights, found⟩
        refine ⟨i + 1, Nat.succ_lt_succ inRange, by omega, ?_⟩
        simpa using found

theorem lookup_reverse_numbered_of_le (upTo : other ≤ height) :
    (numbered height entries).reverse.lookup other = none := by
  apply List.lookup_eq_none_iff.mpr
  rintro ⟨found, entry⟩ member
  rcases exists_of_mem_numbered (List.mem_reverse.mp member) with ⟨i, _, heights, _⟩
  simp only [bne_iff_ne]
  omega

namespace Buffer

/-- A read of one of the last heights returns the latest entry of the log, or a default. -/
structure Shows (buffer : Buffer α capacity) (log : List (ℕ × α)) (default : α)
    (top : ℕ) : Prop where
  start_le : buffer.start ≤ top
  shown : ∀ height ≤ top, top < height + capacity →
    buffer.read height = some ((log.lookup height).getD default)

variable [NeZero capacity] {buffer : Buffer α capacity} {log : List (ℕ × α)} {default : α}
  {top : ℕ}

/-- What consecutive writes leave for their own heights is what they wrote. -/
theorem exists_read_writeAll (inside : height < buffer.start + capacity)
    (above : height < other) (upTo : other ≤ height + entries.length)
    (recent : height + entries.length < other + capacity) (kept : buffer.start < other + capacity) :
    ∃ entry, (numbered height entries).reverse.lookup other = some entry ∧
      (buffer.writeAll height entries).read other = some entry := by
  induction entries using List.reverseRecOn with
  | nil =>
      rw [List.length_nil] at upTo
      omega
  | append_singleton entries last ih =>
      simp only [List.length_append, List.length_singleton] at upTo recent
      have near : height + entries.length < (buffer.writeAll height entries).start + capacity :=
        lt_start_writeAll inside
      have start : (buffer.writeAll height entries).start ≤
          max buffer.start (height + entries.length) := start_writeAll_le
      rw [writeAll_append_singleton, numbered_append_singleton, List.reverse_append,
        List.reverse_singleton, List.singleton_append]
      by_cases same : other = height + entries.length + 1
      · refine ⟨last, ?_, ?_⟩
        · rw [same, List.lookup_cons_self]
        · rw [same]
          apply read_write_self
          omega
      · rcases ih (by omega) (by omega) with ⟨entry, found, read⟩
        refine ⟨entry, ?_, ?_⟩
        · rw [List.lookup_cons, beq_false_of_ne same]
          exact found
        · rw [read_write_of_lt (by omega) (by omega) (by omega)]
          exact read

theorem Shows.writeAll (shows : buffer.Shows log default top)
    (inside : height < buffer.start + capacity)
    (fits : height ≤ top ∧ top ≤ height + entries.length ∨
      height + capacity ≤ height + entries.length ∧ buffer.start ≤ height + entries.length) :
    (buffer.writeAll height entries).Shows ((numbered height entries).reverse ++ log) default
      (height + entries.length) where
  start_le := by
    have start : (buffer.writeAll height entries).start ≤
        max buffer.start (height + entries.length) := start_writeAll_le
    have start_le := shows.start_le
    omega
  shown := by
    intro other upTo recent
    have start_le := shows.start_le
    rw [List.lookup_append]
    by_cases above : height < other
    · rcases exists_read_writeAll inside above upTo recent (by omega) with ⟨entry, found, read⟩
      rw [read, found]
      rfl
    · rw [read_writeAll_of_le inside (by omega) recent, lookup_reverse_numbered_of_le (by omega),
        Option.none_or]
      exact shows.shown other (by omega) (by omega)

end Buffer

end CircularBuffer
