import Mathlib.Data.List.Basic

/-!
# Readers of a string

A reader reads a string from an offset that it moves, or fails. What it understands is given
by its readings: a string is read as a result if the reader returns that result wherever the
string occurs, whatever comes before and after it. Readings compose along sequences and
loops, and no string has two of them. A reader is local if every successful run of it is a
reading of the part of the data that it moved over; sequences and loops of local readers are
local. The lengths of the strings are limited, as the offsets of a machine are.
-/

namespace Readers

variable {β ε α γ σ : Type}

abbrev Reader (β ε α : Type) := List β → StateT ℕ (Except ε) α

def slice (data : List β) (start stop : ℕ) : List β := (data.drop start).take (stop - start)

/-- The reader returns a result for a string, wherever it occurs. -/
def Reads (limit : ℕ) (reader : Reader β ε α) (string : List β) (result : α) : Prop :=
  ∀ before rest, (before ++ (string ++ rest)).length < limit →
    reader (before ++ (string ++ rest)) before.length =
      .ok (result, before.length + string.length)

/-- The reader fails on a string, wherever it occurs. -/
def Fails (limit : ℕ) (reader : Reader β ε α) (string : List β) : Prop :=
  ∀ before rest, (before ++ (string ++ rest)).length < limit →
    ∃ failure, reader (before ++ (string ++ rest)) before.length = .error failure

/-- A run within the data is a reading of the part that it moves over. -/
def Local (limit : ℕ) (reader : Reader β ε α) : Prop :=
  ∀ data start result stop, reader data start = .ok (result, stop) →
    start ≤ stop ∧ (stop ≤ data.length → Reads limit reader (slice data start stop) result)

/-- A loop that collects results and passes a state on. -/
def loop (body : σ → Reader β ε (α × σ)) : ℕ → σ → Reader β ε (List α × σ)
  | 0, state, _ => pure ([], state)
  | count + 1, state, data => do
      let (result, state) ← body state data
      let (results, state) ← loop body count state data
      pure (result :: results, state)

/-- A loop that collects results. -/
def repeated (body : Reader β ε α) (count : ℕ) : Reader β ε (List α) := fun data => do
  let (results, _) ← loop (fun _ : Unit => fun data => do
    let result ← body data
    pure (result, ())) count () data
  pure results

/-- A sequence runs its first part and then the rest from where that stopped. -/
theorem run_bind (first : StateT ℕ (Except ε) α) (next : α → StateT ℕ (Except ε) γ) (start : ℕ) :
    (first >>= next) start = (first start >>= fun outcome => next outcome.1 outcome.2) := rfl

theorem bind_eq_ok_iff {start stop : ℕ} {last : γ} {first : StateT ℕ (Except ε) α}
    {next : α → StateT ℕ (Except ε) γ} :
    (first >>= next) start = .ok (last, stop) ↔
      ∃ result middle, first start = .ok (result, middle) ∧
        next result middle = .ok (last, stop) := by
  rw [run_bind]
  cases ran : first start with
  | error failure =>
      constructor
      · intro failed
        cases failed
      · rintro ⟨_, _, ok, _⟩
        cases ok
  | ok outcome =>
      constructor
      · intro continued
        exact ⟨outcome.1, outcome.2, rfl, continued⟩
      · rintro ⟨_, _, ok, continued⟩
        cases ok
        exact continued

section Slices

variable {data before string rest : List β} {start middle stop : ℕ}

theorem slice_append_slice (data : List β) (first : start ≤ middle) (second : middle ≤ stop) :
    slice data start middle ++ slice data middle stop = slice data start stop := by
  have whole : stop - start = (middle - start) + (stop - middle) := by omega
  have moved : start + (middle - start) = middle := by omega
  rw [slice, slice, slice, whole, List.take_add, List.drop_drop, moved]

theorem slice_of_append :
    slice (before ++ (string ++ rest)) before.length (before.length + string.length) = string := by
  simp [slice]

theorem length_slice (ordered : start ≤ stop) (within : stop ≤ data.length) :
    (slice data start stop).length = stop - start := by
  rw [slice, List.length_take, List.length_drop]
  omega

theorem length_slice_add {count : ℕ} (within : start + count ≤ data.length) :
    (slice data start (start + count)).length = count := by
  rw [length_slice (Nat.le_add_right start count) within, Nat.add_sub_cancel_left]

/-- A string in data that fits ends before the limit. -/
theorem end_lt {limit : ℕ} (bound : (before ++ (string ++ rest)).length < limit) :
    before.length + string.length < limit := by
  simp only [List.length_append] at bound
  omega

theorem slice_self : slice data start start = [] := by
  simp [slice]

/-- A slice starts with the element at its start. -/
theorem slice_eq_cons {element : β} (here : data[start]? = some element) (width : ℕ) :
    slice data start (start + (width + 1)) =
      element :: slice data (start + 1) (start + (width + 1)) := by
  rcases List.getElem?_eq_some_iff.mp here with ⟨inRange, is⟩
  have whole : start + (width + 1) - start = width + 1 := by omega
  have tail : start + (width + 1) - (start + 1) = width := by omega
  rw [slice, slice, whole, tail, List.drop_eq_getElem_cons inRange, is, List.take_succ_cons]

/-- What is left of the data goes on after a slice of it. -/
theorem slice_append_drop (data : List β) (ordered : start ≤ stop) :
    slice data start stop ++ data.drop stop = data.drop start := by
  have moved : start + (stop - start) = stop := by omega
  have parts := List.take_append_drop (stop - start) (data.drop start)
  rw [List.drop_drop, moved] at parts
  exact parts

theorem slice_to_end : slice data start data.length = data.drop start := by
  rw [slice]
  apply List.take_of_length_le
  exact Nat.le_of_eq List.length_drop

end Slices

section Readings

variable {limit : ℕ} {reader first : Reader β ε α} {next : α → Reader β ε γ}
  {string more data rest other : List β} {result : α} {start : ℕ}

/-- A reading of what the data contains at an offset. -/
theorem Reads.run {before : List β} (reads : Reads limit reader string result)
    (here : data = before ++ (string ++ rest)) (starts : before.length = start)
    (bound : data.length < limit) : reader data start = .ok (result, start + string.length) := by
  subst here starts
  exact reads before rest bound

/-- No two beginnings of the same data have different readings. -/
theorem Reads.unique {last : α} (reads : Reads limit reader string result)
    (also : Reads limit reader more last) (same : string ++ rest = more ++ other)
    (bound : (string ++ rest).length < limit) : string = more ∧ result = last := by
  have left := reads [] rest (by simpa using bound)
  have right := also [] other (by rw [← same]; simpa using bound)
  simp only [List.nil_append, List.length_nil, Nat.zero_add, same] at left right
  rw [left, Except.ok.injEq, Prod.mk.injEq] at right
  exact ⟨(List.append_inj same right.2).1, right.1⟩

/-- A reading only concerns strings that fit. -/
theorem Reads.of_fits (reads : string.length < limit → Reads limit reader string result) :
    Reads limit reader string result := by
  intro before rest bound
  apply reads
  · exact Nat.lt_of_le_of_lt (Nat.le_add_left _ _) (end_lt bound)
  · exact bound

theorem Fails.of_fits (fails : string.length < limit → Fails limit reader string) :
    Fails limit reader string := by
  intro before rest bound
  apply fails
  · exact Nat.lt_of_le_of_lt (Nat.le_add_left _ _) (end_lt bound)
  · exact bound

/-- What is read at the start of some data is not a failure there. -/
theorem Reads.not_fails (reads : Reads limit reader string result)
    (same : string ++ rest = more ++ other) (bound : (string ++ rest).length < limit) :
    ¬Fails limit reader more := by
  intro fails
  have read := reads [] rest (by simpa using bound)
  rcases fails [] other (by rw [← same]; simpa using bound) with ⟨failure, failed⟩
  rw [← same] at failed
  cases read.symm.trans failed

theorem Reads.pure (limit : ℕ) (result : α) :
    Reads limit (fun _ => Pure.pure result : Reader β ε α) [] result := by
  intro before rest _
  rfl

theorem Reads.lift {value : Except ε α} (succeeds : value = .ok result) :
    Reads limit (fun _ => liftM value : Reader β ε α) [] result := by
  intro before rest _
  rw [succeeds]
  rfl

theorem Reads.bind {last : γ} (reads : Reads limit first string result)
    (readsNext : Reads limit (next result) more last) :
    Reads limit (fun data => first data >>= fun result => next result data) (string ++ more)
      last := by
  intro before rest bound
  have reassociated : before ++ (string ++ more ++ rest) =
      (before ++ string) ++ (more ++ rest) := by simp
  have runFirst := reads before (more ++ rest) (by simpa using bound)
  have runNext := readsNext (before ++ string) rest (by rw [← reassociated]; exact bound)
  rw [← List.append_assoc string] at runFirst
  rw [← reassociated, List.length_append] at runNext
  have lengths : before.length + (string ++ more).length =
      before.length + string.length + more.length := by
    rw [List.length_append, Nat.add_assoc]
  rw [lengths]
  exact bind_eq_ok_iff.mpr ⟨result, _, runFirst, runNext⟩

/-- A last step that only computes. -/
theorem Reads.bind_pure {last : γ} {transform : α → γ} (reads : Reads limit first string result)
    (transformed : transform result = last) :
    Reads limit (fun data => first data >>= fun result => Pure.pure (transform result)) string
      last := by
  rw [← List.append_nil string, ← transformed]
  exact reads.bind (Reads.pure limit (transform result))

variable {body : σ → Reader β ε (α × σ)} {state middle last : σ} {results : List α} {count : ℕ}

theorem Reads.loop_zero (limit : ℕ) (state : σ) : Reads limit (loop body 0 state) [] ([], state) :=
  Reads.pure limit ([], state)

theorem Reads.loop_succ (reads : Reads limit (body state) string (result, middle))
    (readsRest : Reads limit (loop body count middle) more (results, last)) :
    Reads limit (loop body (count + 1) state) (string ++ more) (result :: results, last) := by
  change Reads limit (fun data => body state data >>= fun pair =>
    loop body count pair.2 data >>= fun rest => Pure.pure (pair.1 :: rest.1, rest.2)) _ _
  apply reads.bind
  exact readsRest.bind_pure rfl

theorem Reads.repeated {ι : Type} {body : Reader β ε α} {encode : ι → List β} (decode : ι → α)
    {items : List ι} (reads : ∀ item ∈ items, Reads limit body (encode item) (decode item)) :
    Reads limit (repeated body items.length) (items.flatMap encode) (items.map decode) := by
  have collected : Reads limit
      (loop (fun _ : Unit => fun data => body data >>= fun result => Pure.pure (result, ()))
        items.length ()) (items.flatMap encode) (items.map decode, ()) := by
    induction items with
    | nil => exact Reads.loop_zero limit ()
    | cons item items ih =>
        apply Reads.loop_succ
        · exact (reads item List.mem_cons_self).bind_pure rfl
        · apply ih
          intro other member
          exact reads other (List.mem_cons_of_mem item member)
  exact collected.bind_pure rfl

theorem Fails.lift {value : Except ε α} {failure : ε} (fails : value = .error failure) :
    Fails limit (fun _ => liftM value : Reader β ε α) string := by
  intro before rest _
  rw [fails]
  exact ⟨failure, rfl⟩

theorem Fails.bind (fails : Fails limit first string) :
    Fails limit (fun data => first data >>= fun result => next result data) (string ++ more) := by
  intro before rest bound
  rw [List.append_assoc string] at bound ⊢
  rcases fails before (more ++ rest) bound with ⟨failure, failed⟩
  refine ⟨failure, ?_⟩
  exact congrArg (fun outcome : Except ε (α × ℕ) => outcome >>= fun outcome =>
    next outcome.1 (before ++ (string ++ (more ++ rest))) outcome.2) failed

theorem Reads.bind_fails (reads : Reads limit first string result)
    (fails : Fails limit (next result) more) :
    Fails limit (fun data => first data >>= fun result => next result data) (string ++ more) := by
  intro before rest bound
  have reassociated : before ++ (string ++ more ++ rest) =
      (before ++ string) ++ (more ++ rest) := by simp
  have runFirst := reads before (more ++ rest) (by simpa using bound)
  rcases fails (before ++ string) rest (by rw [← reassociated]; exact bound) with
    ⟨failure, failed⟩
  rw [← List.append_assoc string] at runFirst
  rw [← reassociated, List.length_append] at failed
  refine ⟨failure, ?_⟩
  rw [← failed]
  exact congrArg (fun outcome : Except ε (α × ℕ) => outcome >>= fun outcome =>
    next outcome.1 (before ++ (string ++ more ++ rest)) outcome.2) runFirst

theorem Fails.loop_succ (fails : Fails limit (body state) string) :
    Fails limit (loop body (count + 1) state) (string ++ more) :=
  Fails.bind fails

theorem Reads.loop_succ_fails (reads : Reads limit (body state) string (result, middle))
    (fails : Fails limit (loop body count middle) more) :
    Fails limit (loop body (count + 1) state) (string ++ more) := by
  change Fails limit (fun data => body state data >>= fun pair =>
    loop body count pair.2 data >>= fun rest => Pure.pure (pair.1 :: rest.1, rest.2)) _
  apply reads.bind_fails
  rw [← List.append_nil more]
  exact fails.bind

end Readings

section Locality

variable {limit : ℕ} {first : Reader β ε α} {next : α → Reader β ε γ}

theorem Local.pure (limit : ℕ) (result : α) :
    Local limit (fun _ => Pure.pure result : Reader β ε α) := by
  intro data start last stop run
  cases run
  refine ⟨Nat.le_refl start, ?_⟩
  intro _
  rw [slice_self]
  exact Reads.pure limit result

theorem Local.lift (limit : ℕ) (value : Except ε α) :
    Local limit (fun _ => liftM value : Reader β ε α) := by
  intro data start last stop run
  cases value with
  | error failure => cases run
  | ok result =>
      cases run
      refine ⟨Nat.le_refl start, ?_⟩
      intro _
      rw [slice_self]
      exact Reads.lift rfl

theorem Local.bind (isLocal : Local limit first) (nextLocal : ∀ result, Local limit (next result)) :
    Local limit (fun data => first data >>= fun result => next result data) := by
  intro data start last stop run
  rcases bind_eq_ok_iff.mp run with ⟨result, middle, ran, continued⟩
  rcases isLocal data start result middle ran with ⟨before, reads⟩
  rcases nextLocal result data middle last stop continued with ⟨after, readsNext⟩
  refine ⟨Nat.le_trans before after, ?_⟩
  intro within
  rw [← slice_append_slice data before after]
  exact (reads (Nat.le_trans after within)).bind (readsNext within)

theorem Local.loop {body : σ → Reader β ε (α × σ)} (bodyLocal : ∀ state, Local limit (body state))
    (count : ℕ) (state : σ) : Local limit (loop body count state) := by
  induction count generalizing state with
  | zero => exact Local.pure limit ([], state)
  | succ count ih =>
      apply Local.bind (bodyLocal state)
      intro pair
      apply Local.bind (ih pair.2)
      intro rest
      exact Local.pure limit (pair.1 :: rest.1, rest.2)

theorem Local.repeated {body : Reader β ε α} (bodyLocal : Local limit body) (count : ℕ) :
    Local limit (repeated body count) := by
  apply Local.bind
  · apply Local.loop
    intro _
    apply bodyLocal.bind
    intro result
    exact Local.pure limit (result, ())
  · intro pair
    exact Local.pure limit pair.1

end Locality

end Readers
