import Mathlib.Algebra.GroupWithZero.Nat
import Mathlib.Data.List.Induction
import Mathlib.Data.Vector.Mem

/-!
# Circular buffers with a moving start

A circular buffer of capacity `n` keeps entries for heights near its start: a height
above the start occupies the slot at its distance from the start, a height below it the
slot counted back from the end. Writing a height one capacity past the start moves the
start there, and writing a height that has fallen out of the buffer does nothing.

The file says what a read returns after one write and after the writes of consecutive
heights, in terms of the entries written and of the reads before.
-/

namespace CircularBuffer

/-- A buffer with the height that its first slot stands for. -/
structure Buffer (α : Type*) (capacity : ℕ) where
  start : ℕ
  slots : List.Vector α capacity

namespace Buffer

variable {α : Type*} {capacity : ℕ}

/-- The slot of a height within one capacity of the start. -/
def slotOf (capacity start height : ℕ) : ℕ :=
  if start ≤ height then height - start else capacity - (start - height)

def Covers (buffer : Buffer α capacity) (height : ℕ) : Prop :=
  buffer.start < height + capacity ∧ height < buffer.start + capacity

instance (buffer : Buffer α capacity) (height : ℕ) : Decidable (buffer.Covers height) :=
  inferInstanceAs (Decidable (_ ∧ _))

theorem Covers.slotOf_lt {buffer : Buffer α capacity} {height : ℕ}
    (covers : buffer.Covers height) : slotOf capacity buffer.start height < capacity := by
  rcases covers with ⟨below, above⟩
  simp only [slotOf]
  split <;> omega

def read (buffer : Buffer α capacity) (height : ℕ) : Option α :=
  if covers : buffer.Covers height then some (buffer.slots.get ⟨_, covers.slotOf_lt⟩) else none

def write [NeZero capacity] (buffer : Buffer α capacity) (height : ℕ) (entry : α) :
    Buffer α capacity :=
  if covers : buffer.Covers height then
    { buffer with slots := buffer.slots.set ⟨_, covers.slotOf_lt⟩ entry }
  else if buffer.start + capacity ≤ height then
    { start := height, slots := buffer.slots.set 0 entry }
  else buffer

def writeAll [NeZero capacity] : Buffer α capacity → ℕ → List α → Buffer α capacity
  | buffer, _, [] => buffer
  | buffer, height, entry :: entries =>
      writeAll (buffer.write (height + 1) entry) (height + 1) entries

theorem read_of_covers {buffer : Buffer α capacity} {height : ℕ}
    (covers : buffer.Covers height) :
    buffer.read height = some (buffer.slots.get ⟨_, covers.slotOf_lt⟩) := by
  simp [read, covers]

theorem covers_of_read {buffer : Buffer α capacity} {height : ℕ} {entry : α}
    (found : buffer.read height = some entry) : buffer.Covers height := by
  simp only [read] at found
  split at found
  · assumption
  · cases found

theorem read_add_capacity {buffer : Buffer α capacity} {height : ℕ}
    (below : buffer.start < height + capacity)
    (above : height + capacity < buffer.start + capacity) :
    buffer.read (height + capacity) = buffer.read height := by
  have covers : buffer.Covers height := ⟨below, by omega⟩
  have coversNext : buffer.Covers (height + capacity) := ⟨by omega, above⟩
  have slot : slotOf capacity buffer.start (height + capacity) =
      slotOf capacity buffer.start height := by
    simp only [slotOf]
    split <;> split <;> omega
  rw [read_of_covers covers, read_of_covers coversNext]
  congr 2
  exact Fin.ext slot

theorem mem_slots_of_read {buffer : Buffer α capacity} {height : ℕ} {entry : α}
    (found : buffer.read height = some entry) : entry ∈ buffer.slots.toList := by
  rw [read_of_covers (covers_of_read found), Option.some.injEq] at found
  rw [← found]
  exact List.Vector.get_mem _ _

section Write

variable [NeZero capacity] {buffer : Buffer α capacity} {height other : ℕ} {entry found : α}

theorem write_of_covers (covers : buffer.Covers height) :
    buffer.write height entry =
      { buffer with slots := buffer.slots.set ⟨_, covers.slotOf_lt⟩ entry } := by
  simp [write, covers]

theorem write_of_past (past : buffer.start + capacity ≤ height) :
    buffer.write height entry = { start := height, slots := buffer.slots.set 0 entry } := by
  have uncovered : ¬buffer.Covers height := fun covers => by
    have := covers.2
    omega
  simp [write, uncovered, past]

theorem write_of_fallen (fallen : height + capacity ≤ buffer.start) :
    buffer.write height entry = buffer := by
  have positive := Nat.pos_of_neZero capacity
  have uncovered : ¬buffer.Covers height := fun covers => by
    have := covers.1
    omega
  simp only [write, uncovered, dite_false]
  rw [if_neg (by omega)]

theorem start_write : (buffer.write height entry).start =
    if buffer.start + capacity ≤ height then height else buffer.start := by
  split
  · rename_i past
    rw [write_of_past past]
  · rename_i near
    by_cases covers : buffer.Covers height
    · rw [write_of_covers covers]
    · simp only [write, covers, dite_false, if_neg near]

theorem start_le_start_write : buffer.start ≤ (buffer.write height entry).start := by
  rw [start_write]
  split <;> omega

/-- A write that skips no height moves the start by whole capacities. -/
theorem start_write_mod (near : height ≤ buffer.start + capacity) :
    (buffer.write height entry).start % capacity = buffer.start % capacity := by
  rw [start_write]
  split
  · have reached : height = buffer.start + capacity := by omega
    rw [reached, Nat.add_mod_right]
  · rfl

/-- A slot holds the entry written or what some slot held before. -/
theorem mem_slots_of_mem_slots_write (member : found ∈ (buffer.write height entry).slots.toList) :
    found = entry ∨ found ∈ buffer.slots.toList := by
  simp only [write] at member
  split at member
  · rw [List.Vector.toList_set] at member
    exact (List.mem_or_eq_of_mem_set member).symm
  · split at member
    · rw [List.Vector.toList_set] at member
      exact (List.mem_or_eq_of_mem_set member).symm
    · exact Or.inr member

theorem read_write_self (kept : buffer.start < height + capacity) :
    (buffer.write height entry).read height = some entry := by
  have positive := Nat.pos_of_neZero capacity
  by_cases past : buffer.start + capacity ≤ height
  · have covers : (Buffer.mk height (buffer.slots.set 0 entry)).Covers height := by
      constructor <;> simp only <;> omega
    rw [write_of_past past, read_of_covers covers]
    have slot : (⟨_, covers.slotOf_lt⟩ : Fin capacity) = 0 := by
      apply Fin.ext
      simp [slotOf]
    rw [slot, List.Vector.get_set_same]
  · have covers : buffer.Covers height := ⟨kept, by omega⟩
    rw [write_of_covers covers]
    have stillCovers :
        (Buffer.mk buffer.start (buffer.slots.set ⟨_, covers.slotOf_lt⟩ entry)).Covers height :=
      covers
    rw [read_of_covers stillCovers, List.Vector.get_set_same]

/-- A write leaves the entries of the preceding heights alone, up to one capacity back. -/
theorem read_write_of_lt (near : height ≤ buffer.start + capacity) (before : other < height)
    (recent : height < other + capacity) :
    (buffer.write height entry).read other = buffer.read other := by
  by_cases past : buffer.start + capacity ≤ height
  · have covers : buffer.Covers other := by
      constructor <;> omega
    have stillCovers : (Buffer.mk height (buffer.slots.set 0 entry)).Covers other := by
      constructor <;> simp only <;> omega
    rw [write_of_past past, read_of_covers covers, read_of_covers stillCovers]
    have slot : slotOf capacity height other = slotOf capacity buffer.start other := by
      simp only [slotOf]
      split <;> split <;> omega
    have moved : (0 : Fin capacity) ≠ ⟨_, stillCovers.slotOf_lt⟩ := by
      intro same
      have values := congrArg Fin.val same
      simp only [Fin.val_zero, slotOf] at values
      split at values <;> omega
    rw [List.Vector.get_set_of_ne moved]
    congr 2
    exact Fin.ext slot
  · by_cases covers : buffer.Covers height
    · rw [write_of_covers covers]
      by_cases coversOther : buffer.Covers other
      · have stillCovers :
            (Buffer.mk buffer.start (buffer.slots.set ⟨_, covers.slotOf_lt⟩ entry)).Covers other :=
          coversOther
        have different : (⟨_, covers.slotOf_lt⟩ : Fin capacity) ≠ ⟨_, coversOther.slotOf_lt⟩ := by
          intro same
          have values := congrArg Fin.val same
          rcases covers with ⟨_, _⟩
          rcases coversOther with ⟨_, _⟩
          simp only [slotOf] at values
          split at values <;> split at values <;> omega
        rw [read_of_covers coversOther, read_of_covers stillCovers,
          List.Vector.get_set_of_ne different]
      · have stillUncovered :
            ¬(Buffer.mk buffer.start (buffer.slots.set ⟨_, covers.slotOf_lt⟩ entry)).Covers other :=
          coversOther
        simp only [read, coversOther, stillUncovered, dite_false]
    · simp only [write, covers, dite_false, if_neg past]

/-- What a write leaves in the slots of the heights up to its own is the new entry or was
there before. -/
theorem eq_or_read_of_read_write (near : height ≤ buffer.start + capacity)
    (upTo : other ≤ height) (holds : (buffer.write height entry).read other = some found) :
    found = entry ∨ (other < height ∧ buffer.read other = some found) := by
  by_cases same : other = height
  · subst same
    by_cases kept : buffer.start < other + capacity
    · rw [read_write_self kept] at holds
      exact Or.inl (Option.some.inj holds).symm
    · rw [write_of_fallen (by omega)] at holds
      exact absurd (covers_of_read holds).1 kept
  · have before : other < height := by omega
    by_cases recent : height < other + capacity
    · rw [read_write_of_lt near before recent] at holds
      exact Or.inr ⟨before, holds⟩
    · by_cases covers : buffer.Covers height
      · have coversOther : buffer.Covers other := by
          have := covers_of_read holds
          rw [write_of_covers covers] at this
          exact this
        rw [write_of_covers covers] at holds
        have stillCovers :
            (Buffer.mk buffer.start (buffer.slots.set ⟨_, covers.slotOf_lt⟩ entry)).Covers other :=
          coversOther
        rw [read_of_covers stillCovers, List.Vector.get_set_eq_if] at holds
        split at holds
        · exact Or.inl (Option.some.inj holds).symm
        · rw [read_of_covers coversOther]
          exact Or.inr ⟨before, holds⟩
      · have coversOther := covers_of_read holds
        have start : (buffer.write height entry).start =
            if buffer.start + capacity ≤ height then height else buffer.start := start_write
        rcases coversOther with ⟨below, above⟩
        by_cases past : buffer.start + capacity ≤ height
        · rw [if_pos past] at start
          omega
        · simp only [write, covers, dite_false, if_neg past] at holds
          exact Or.inr ⟨before, holds⟩

end Write

section WriteAll

variable [NeZero capacity] {buffer : Buffer α capacity} {height other : ℕ} {entries : List α}

theorem writeAll_append_singleton (last : α) :
    buffer.writeAll height (entries ++ [last]) =
      (buffer.writeAll height entries).write (height + entries.length + 1) last := by
  induction entries generalizing buffer height with
  | nil => rfl
  | cons entry rest ih =>
      have heights : height + 1 + rest.length + 1 = height + (entry :: rest).length + 1 := by
        simp only [List.length_cons]
        omega
      rw [List.cons_append, writeAll, ih, writeAll, heights]

theorem start_le_start_writeAll : buffer.start ≤ (buffer.writeAll height entries).start := by
  induction entries generalizing buffer height with
  | nil => exact le_refl _
  | cons entry rest ih => exact le_trans start_le_start_write ih

theorem mem_slots_of_mem_slots_writeAll {found : α}
    (member : found ∈ (buffer.writeAll height entries).slots.toList) :
    found ∈ entries ∨ found ∈ buffer.slots.toList := by
  induction entries generalizing buffer height with
  | nil => exact Or.inr member
  | cons entry rest ih =>
      rcases ih member with inRest | inWrite
      · exact Or.inl (List.mem_cons_of_mem entry inRest)
      · rcases mem_slots_of_mem_slots_write inWrite with rfl | earlier
        · exact Or.inl List.mem_cons_self
        · exact Or.inr earlier

theorem start_writeAll_le :
    (buffer.writeAll height entries).start ≤ max buffer.start (height + entries.length) := by
  induction entries generalizing buffer height with
  | nil => exact le_max_left _ _
  | cons entry rest ih =>
      have bound : ((buffer.write (height + 1) entry).writeAll (height + 1) rest).start ≤
          max (buffer.write (height + 1) entry).start (height + 1 + rest.length) := ih
      rw [start_write] at bound
      rw [writeAll, List.length_cons]
      split at bound <;> omega

/-- Consecutive writes never run ahead of the buffer. -/
theorem lt_start_writeAll (inside : height < buffer.start + capacity) :
    height + entries.length < (buffer.writeAll height entries).start + capacity := by
  induction entries generalizing buffer height with
  | nil => exact inside
  | cons entry rest ih =>
      have next : height + 1 < (buffer.write (height + 1) entry).start + capacity := by
        have positive := Nat.pos_of_neZero capacity
        rw [start_write]
        split <;> omega
      have bound := ih next
      rw [writeAll, List.length_cons]
      omega

theorem start_writeAll_mod (inside : height < buffer.start + capacity) :
    (buffer.writeAll height entries).start % capacity = buffer.start % capacity := by
  induction entries using List.reverseRecOn with
  | nil => rfl
  | append_singleton entries last ih =>
      have near : height + entries.length < (buffer.writeAll height entries).start + capacity :=
        lt_start_writeAll inside
      rw [writeAll_append_singleton, start_write_mod (by omega)]
      exact ih

/-- What consecutive writes leave in the slots of the heights up to their last was written
by them or was there before. -/
theorem mem_or_read_of_read_writeAll {found : α} (inside : height < buffer.start + capacity)
    (upTo : other ≤ height + entries.length)
    (holds : (buffer.writeAll height entries).read other = some found) :
    found ∈ entries ∨ buffer.read other = some found := by
  induction entries using List.reverseRecOn with
  | nil => exact Or.inr holds
  | append_singleton entries last ih =>
      have near : height + entries.length < (buffer.writeAll height entries).start + capacity :=
        lt_start_writeAll inside
      rw [writeAll_append_singleton] at holds
      simp only [List.length_append, List.length_singleton] at upTo
      rcases eq_or_read_of_read_write (by omega) (by omega) holds with rfl | ⟨before, earlier⟩
      · exact Or.inl (by simp)
      · rcases ih (by omega) earlier with written | kept
        · exact Or.inl (by simp [written])
        · exact Or.inr kept

/-- Consecutive writes leave the entries of earlier heights alone, up to one capacity back. -/
theorem read_writeAll_of_le (inside : height < buffer.start + capacity) (before : other ≤ height)
    (recent : height + entries.length < other + capacity) :
    (buffer.writeAll height entries).read other = buffer.read other := by
  induction entries using List.reverseRecOn with
  | nil => rfl
  | append_singleton entries last ih =>
      simp only [List.length_append, List.length_singleton] at recent
      have near : height + entries.length < (buffer.writeAll height entries).start + capacity :=
        lt_start_writeAll inside
      rw [writeAll_append_singleton, read_write_of_lt (by omega) (by omega) (by omega)]
      exact ih (by omega)

theorem read_writeAll_last {last : α} (some_last : entries.getLast? = some last)
    (kept : (buffer.writeAll height entries).start < height + entries.length + capacity) :
    (buffer.writeAll height entries).read (height + entries.length) = some last := by
  rcases List.getLast?_eq_some_iff.mp some_last with ⟨entries, rfl⟩
  rw [writeAll_append_singleton] at kept ⊢
  simp only [List.length_append, List.length_singleton, ← Nat.add_assoc] at kept ⊢
  apply read_write_self
  exact lt_of_le_of_lt start_le_start_write kept

end WriteAll

end Buffer

end CircularBuffer
