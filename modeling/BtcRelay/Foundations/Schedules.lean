import Mathlib.Data.Finset.Basic
import Mathlib.Data.List.Nodup
import Mathlib.Data.List.Perm.Basic

/-!
# Schedules of requests with declared accounts

A store has a value at every key, and a request declares the keys that it may use and those
of them that it may change. If every request keeps to its declaration, then two schedules of
the same requests in which any two that conflict come in the same order are equivalent:
they lead to the same store, and every request has the same outcome in both.
-/

namespace Schedules

universe u v w x y z

/-- States that hold a value at every key, and nothing else. -/
structure Store (State : Type u) (Key : Type v) (Value : Key → Type w) where
  read : State → (key : Key) → Value key
  write : State → (key : Key) → Value key → State
  read_write : ∀ state key value, read (write state key value) key = value
  read_write_of_ne : ∀ state {key other : Key} value, other ≠ key →
    read (write state key value) other = read state other
  ext : ∀ {left right : State}, (∀ key, read left key = read right key) → left = right

/-- The keys that a request declares: those it only reads, and those it may change. -/
structure Footprint (Key : Type v) where
  readonly : Finset Key
  writable : Finset Key

namespace Footprint

variable {Key : Type v} [DecidableEq Key]

def keys (footprint : Footprint Key) : Finset Key :=
  footprint.readonly ∪ footprint.writable

theorem mem_keys_of_writable {footprint : Footprint Key} {key : Key}
    (member : key ∈ footprint.writable) : key ∈ footprint.keys :=
  Finset.mem_union_right _ member

/-- Neither request may change a key that the other declares. -/
def Independent (left right : Footprint Key) : Prop :=
  Disjoint left.writable right.keys ∧ Disjoint left.keys right.writable

instance (left right : Footprint Key) : Decidable (left.Independent right) :=
  inferInstanceAs (Decidable (_ ∧ _))

theorem Independent.symm {left right : Footprint Key} (independent : left.Independent right) :
    right.Independent left :=
  ⟨independent.2.symm, independent.1.symm⟩

end Footprint

/-- Performs a request, which changes nothing if it fails. -/
def perform {State : Type u} {Request : Type x} {Output : Type y} {Failure : Type z}
    (process : State → Request → Except Failure (State × Output)) (state : State)
    (request : Request) : State × Except Failure Output :=
  match process state request with
  | .ok (after, output) => (after, .ok output)
  | .error failure => (state, .error failure)

/-- Performs the requests of a schedule, and pairs each label with the outcome of its request. -/
def performAll {State : Type u} {Request : Type x} {Output : Type y} {Failure : Type z}
    {Label : Type v} (process : State → Request → Except Failure (State × Output))
    (request : Label → Request) :
    State → List Label → State × List (Label × Except Failure Output)
  | state, [] => (state, [])
  | state, label :: schedule =>
      let first := perform process state (request label)
      let later := performAll process request first.1 schedule
      (later.1, (label, first.2) :: later.2)

section

variable {State Output : Type u} {Key : Type v} [DecidableEq Key] {Value : Key → Type w}
  {Request : Type x} {Label : Type y} {Failure : Type z}

def AgreeOn (store : Store State Key Value) (keys : Finset Key) (left right : State) : Prop :=
  ∀ key ∈ keys, store.read left key = store.read right key

/-- What is left of two states by the same writes to writable keys: they agree on the declared
keys, and the first is unchanged elsewhere. -/
structure Written (store : Store State Key Value) (footprint : Footprint Key)
    (state after after' : State) : Prop where
  agree : AgreeOn store footprint.keys after after'
  frame : ∀ key ∉ footprint.writable, store.read after key = store.read state key

/-- The results of a request on two states: the same failure, or the same output and writes. -/
inductive Confined (store : Store State Key Value) (footprint : Footprint Key) (state : State) :
    Except Failure (State × Output) → Except Failure (State × Output) → Prop
  | ok {after after' : State} {output : Output}
      (written : Written store footprint state after after') :
      Confined store footprint state (.ok (after, output)) (.ok (after', output))
  | error (failure : Failure) : Confined store footprint state (.error failure) (.error failure)

/-- Every request, on states that agree on the keys it declares, has the same result. -/
def Respects (store : Store State Key Value)
    (process : State → Request → Except Failure (State × Output))
    (footprint : Request → Footprint Key) : Prop :=
  ∀ (state other : State) (request : Request),
    AgreeOn store (footprint request).keys state other →
      Confined store (footprint request) state (process state request) (process other request)

/-- Two schedules of the same requests, with those that conflict in the same order. -/
structure ConflictEquivalent (footprint : Label → Footprint Key) (first second : List Label) :
    Prop where
  nodup : first.Nodup
  perm : first.Perm second
  ordered : ∀ {earlier later : Label}, ¬ (footprint earlier).Independent (footprint later) →
    [earlier, later].Sublist first → [earlier, later].Sublist second

/-- Two results of schedules: the same store, and the same outcome at every label. -/
def SameResult (left right : State × List (Label × Except Failure Output)) : Prop :=
  left.1 = right.1 ∧ left.2.Perm right.2

variable {store : Store State Key Value} {footprint : Footprint Key}
  {process : State → Request → Except Failure (State × Output)}
  {footprintOf : Request → Footprint Key} {request : Label → Request}
  {state other : State} {schedule first second : List Label}

theorem AgreeOn.written (agree : AgreeOn store footprint.keys state other) :
    Written store footprint state state other :=
  ⟨agree, fun _ _ => rfl⟩

theorem Written.write {after after' : State} (written : Written store footprint state after after')
    (key : Key) (writable : key ∈ footprint.writable) (value : Value key) :
    Written store footprint state (store.write after key value) (store.write after' key value) where
  agree other declared := by
    by_cases same : other = key
    · subst same
      rw [store.read_write, store.read_write]
    · rw [store.read_write_of_ne _ _ same, store.read_write_of_ne _ _ same]
      exact written.agree other declared
  frame other readonly := by
    have different : other ≠ key := by
      rintro rfl
      exact readonly writable
    rw [store.read_write_of_ne _ _ different]
    exact written.frame other readonly

/-- A computation that does not touch the state may come first. -/
theorem Confined.bind {Intermediate : Type u} {computation : Except Failure Intermediate}
    {next next' : Intermediate → Except Failure (State × Output)}
    (confined : ∀ value, Confined store footprint state (next value) (next' value)) :
    Confined store footprint state (computation >>= next) (computation >>= next') := by
  cases computation with
  | error failure => exact .error failure
  | ok value => exact confined value

theorem perform_frame (respects : Respects store process footprintOf) {called : Request}
    {key : Key} (readonly : key ∉ (footprintOf called).writable) :
    store.read (perform process state called).1 key = store.read state key := by
  have same : AgreeOn store (footprintOf called).keys state state := fun _ _ => rfl
  have confined := respects state state called same
  rw [perform]
  generalize process state called = result at confined
  cases confined with
  | ok written => exact written.frame key readonly
  | error failure => rfl

theorem perform_agree (respects : Respects store process footprintOf) {called : Request}
    (agree : AgreeOn store (footprintOf called).keys state other) :
    (perform process state called).2 = (perform process other called).2 ∧
      AgreeOn store (footprintOf called).keys (perform process state called).1
        (perform process other called).1 := by
  have confined := respects state other called agree
  rw [perform, perform]
  generalize process state called = result at confined
  generalize process other called = result' at confined
  cases confined with
  | ok written => exact ⟨rfl, written.agree⟩
  | error failure => exact ⟨rfl, agree⟩

/-- What one request leaves agrees, where another independent one looks, with what it found. -/
theorem agreeOn_perform (respects : Respects store process footprintOf) {called next : Request}
    (independent : (footprintOf called).Independent (footprintOf next)) :
    AgreeOn store (footprintOf next).keys state (perform process state called).1 := by
  intro key declared
  apply Eq.symm
  apply perform_frame respects
  intro written
  exact Finset.disjoint_left.mp independent.1 written declared

theorem perform_comm (respects : Respects store process footprintOf) {called next : Request}
    (independent : (footprintOf called).Independent (footprintOf next)) :
    (perform process (perform process state called).1 next).1 =
        (perform process (perform process state next).1 called).1 ∧
      (perform process (perform process state called).1 next).2 = (perform process state next).2 ∧
      (perform process (perform process state next).1 called).2 =
        (perform process state called).2 := by
  have nextAgrees : AgreeOn store (footprintOf next).keys state (perform process state called).1 :=
    agreeOn_perform respects independent
  have calledAgrees : AgreeOn store (footprintOf called).keys state (perform process state next).1 :=
    agreeOn_perform respects independent.symm
  have nextAlike := perform_agree respects nextAgrees
  have calledAlike := perform_agree respects calledAgrees
  refine ⟨store.ext ?_, nextAlike.1.symm, calledAlike.1.symm⟩
  intro key
  by_cases writtenNext : key ∈ (footprintOf next).writable
  · -- only the second request may have changed this key
    have untouched : key ∉ (footprintOf called).writable := by
      intro written
      exact Finset.disjoint_left.mp independent.1 written
        (Footprint.mem_keys_of_writable writtenNext)
    have kept : store.read (perform process (perform process state next).1 called).1 key =
        store.read (perform process state next).1 key := perform_frame respects untouched
    rw [kept]
    exact (nextAlike.2 key (Footprint.mem_keys_of_writable writtenNext)).symm
  · rw [perform_frame respects writtenNext]
    by_cases written : key ∈ (footprintOf called).writable
    · exact calledAlike.2 key (Footprint.mem_keys_of_writable written)
    · rw [perform_frame respects written, perform_frame respects written,
        perform_frame respects writtenNext]

theorem SameResult.refl (result : State × List (Label × Except Failure Output)) :
    SameResult result result :=
  ⟨rfl, .refl _⟩

theorem SameResult.trans {left middle right : State × List (Label × Except Failure Output)}
    (same : SameResult left middle) (next : SameResult middle right) : SameResult left right :=
  ⟨same.1.trans next.1, same.2.trans next.2⟩

theorem SameResult.symm {left right : State × List (Label × Except Failure Output)}
    (same : SameResult left right) : SameResult right left :=
  ⟨same.1.symm, same.2.symm⟩

theorem SameResult.cons {label : Label}
    (same : ∀ state, SameResult (performAll process request state first)
      (performAll process request state second)) :
    SameResult (performAll process request state (label :: first))
      (performAll process request state (label :: second)) :=
  ⟨(same _).1, (same _).2.cons _⟩

theorem sameResult_swap (respects : Respects store process footprintOf) {earlier later : Label}
    (independent : (footprintOf (request earlier)).Independent (footprintOf (request later))) :
    SameResult (performAll process request state (earlier :: later :: schedule))
      (performAll process request state (later :: earlier :: schedule)) := by
  obtain ⟨final, laterOutcome, earlierOutcome⟩ :
      (perform process (perform process state (request earlier)).1 (request later)).1 =
          (perform process (perform process state (request later)).1 (request earlier)).1 ∧
        (perform process (perform process state (request earlier)).1 (request later)).2 =
          (perform process state (request later)).2 ∧
        (perform process (perform process state (request later)).1 (request earlier)).2 =
          (perform process state (request earlier)).2 :=
    perform_comm respects independent
  simp only [performAll, SameResult, final, laterOutcome, earlierOutcome]
  exact ⟨trivial, List.Perm.swap _ _ _⟩

/-- A request may be moved before the requests that it is independent of. -/
theorem sameResult_moveToFront (respects : Respects store process footprintOf) {label : Label}
    {before after : List Label}
    (independent : ∀ earlier ∈ before,
      (footprintOf (request earlier)).Independent (footprintOf (request label))) :
    SameResult (performAll process request state (before ++ label :: after))
      (performAll process request state (label :: (before ++ after))) := by
  induction before generalizing state with
  | nil => exact .refl _
  | cons earlier rest ih =>
      have moved : ∀ state, SameResult (performAll process request state (rest ++ label :: after))
          (performAll process request state (label :: (rest ++ after))) := by
        intro state
        exact ih fun other member => independent other (List.mem_cons_of_mem earlier member)
      apply SameResult.trans (SameResult.cons moved)
      exact sameResult_swap respects (independent earlier List.mem_cons_self)

namespace ConflictEquivalent

variable {footprints : Label → Footprint Key} {label : Label} {before after : List Label}

theorem notMem (equivalent : ConflictEquivalent footprints (label :: schedule)
    (before ++ label :: after)) : label ∉ before ++ after :=
  (List.nodup_middle.mp (equivalent.perm.nodup equivalent.nodup)).notMem

/-- The requests that come before the head of the other schedule do not conflict with it. -/
theorem independent_of_mem_before (equivalent : ConflictEquivalent footprints (label :: schedule)
    (before ++ label :: after)) {earlier : Label} (member : earlier ∈ before) :
    (footprints earlier).Independent (footprints label) := by
  by_contra conflict
  have different : earlier ≠ label := by
    rintro rfl
    exact equivalent.notMem (List.mem_append_left after member)
  have inSchedule : earlier ∈ schedule := by
    have member' := equivalent.perm.mem_iff.mpr (List.mem_append_left (label :: after) member)
    exact (List.mem_cons.mp member').resolve_left different
  have sublist := equivalent.ordered (fun independent => conflict independent.symm)
    (List.cons_sublist_cons.mpr (List.singleton_sublist.mpr inSchedule))
  rcases List.sublist_append_iff.mp sublist with ⟨front, back, split, inBefore, inAfter⟩
  cases front with
  | cons first rest =>
      have first_eq : label = first := (List.cons.inj split).1
      apply equivalent.notMem
      rw [first_eq]
      exact List.mem_append_left after (inBefore.subset List.mem_cons_self)
  | nil =>
      rw [List.nil_append] at split
      have later : earlier ∈ label :: after := inAfter.subset (by simp [← split])
      have apart := (List.nodup_append.mp (equivalent.perm.nodup equivalent.nodup)).2.2
      exact apart earlier member earlier later rfl

theorem tail (equivalent : ConflictEquivalent footprints (label :: schedule)
    (before ++ label :: after)) : ConflictEquivalent footprints schedule (before ++ after) where
  nodup := equivalent.nodup.of_cons
  perm := (equivalent.perm.trans List.perm_middle).cons_inv
  ordered := by
    classical
    intro earlier later conflict sublist
    have moved := (equivalent.ordered conflict (sublist.cons label)).filter (· ≠ label)
    have keep : ∀ {labels : List Label}, label ∉ labels → labels.filter (· ≠ label) = labels := by
      intro labels absent
      apply List.filter_eq_self.mpr
      intro other member
      have different : other ≠ label := by
        rintro rfl
        exact absent member
      simpa using different
    have absent := equivalent.notMem
    rw [List.mem_append, not_or] at absent
    rw [keep fun member => equivalent.nodup.notMem (sublist.subset member),
      List.filter_append, keep absent.1, List.filter_cons_of_neg (by simp), keep absent.2] at moved
    exact moved

end ConflictEquivalent

/-- Conflict-equivalent schedules have the same result. -/
theorem sameResult_of_conflictEquivalent (respects : Respects store process footprintOf)
    (equivalent : ConflictEquivalent (fun label => footprintOf (request label)) first second) :
    SameResult (performAll process request state first)
      (performAll process request state second) := by
  induction first generalizing state second with
  | nil =>
      rw [← equivalent.perm.nil_eq]
      exact .refl _
  | cons label rest ih =>
      obtain ⟨before, after, rfl⟩ :=
        List.append_of_mem (equivalent.perm.mem_iff.mp List.mem_cons_self)
      have moved : SameResult (performAll process request state (before ++ label :: after))
          (performAll process request state (label :: (before ++ after))) :=
        sameResult_moveToFront respects fun earlier member =>
          equivalent.independent_of_mem_before member
      have remaining : ∀ state, SameResult (performAll process request state rest)
          (performAll process request state (before ++ after)) := fun state => ih equivalent.tail
      exact (SameResult.cons remaining).trans moved.symm

end

end Schedules
