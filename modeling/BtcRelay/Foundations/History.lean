import Mathlib.Data.List.Basic

/-!
# Runs of a deterministic system

A system processes requests: each either fails, and leaves the state as it was, or
leads to a next state with an output. A run is the list of its successful steps, the
newest first. Every claim about all runs is proved by the invariant rule, from what the
first state satisfies and what one step preserves, and a concrete run is obtained by
executing a list of requests.
-/

namespace History

universe u v w x

structure Step (State : Type u) (Request : Type v) (Output : Type w) where
  before : State
  request : Request
  after : State
  output : Output

variable {State : Type u} {Request : Type v} {Output : Type w} {Failure : Type x}

/-- The runs of a system from its initial states. -/
inductive Run (process : State → Request → Except Failure (State × Output))
    (Initial : State → Prop) : List (Step State Request Output) → State → Prop
  | start {state : State} (initial : Initial state) : Run process Initial [] state
  | step {steps : List (Step State Request Output)} {state after : State} {request : Request}
      {output : Output} (run : Run process Initial steps state)
      (success : process state request = .ok (after, output)) :
      Run process Initial ({ before := state, request, after, output } :: steps) after

section

variable {process : State → Request → Except Failure (State × Output)} {Initial : State → Prop}
  {steps earlier later : List (Step State Request Output)} {state : State}
  {step : Step State Request Output}

namespace Run

/-- A property that holds initially and is preserved by every step holds along every run. -/
theorem invariant {motive : List (Step State Request Output) → State → Prop}
    (run : Run process Initial steps state)
    (initially : ∀ state, Initial state → motive [] state)
    (preserved : ∀ steps state request after output, Run process Initial steps state →
      motive steps state → process state request = .ok (after, output) →
      motive ({ before := state, request, after, output } :: steps) after) :
    motive steps state := by
  induction run with
  | start initial => exact initially _ initial
  | step run success ih => exact preserved _ _ _ _ _ run ih success

theorem of_cons (run : Run process Initial (step :: earlier) state) :
    Run process Initial earlier step.before ∧
      process step.before step.request = .ok (step.after, step.output) ∧ state = step.after := by
  cases run with
  | step run success => exact ⟨run, success, rfl⟩

/-- The steps before a given one form a run to the state it starts from, and it ends in the
state that the later ones start from. -/
theorem split (run : Run process Initial (later ++ step :: earlier) state) :
    Run process Initial earlier step.before ∧
      process step.before step.request = .ok (step.after, step.output) ∧
      Run process Initial (step :: earlier) step.after := by
  induction later generalizing state with
  | nil =>
      rcases run.of_cons with ⟨before, success, rfl⟩
      exact ⟨before, success, run⟩
  | cons _ rest ih => exact ih run.of_cons.1

theorem of_suffix (run : Run process Initial steps state) (suffix : step :: earlier <:+ steps) :
    Run process Initial (step :: earlier) step.after := by
  rcases suffix with ⟨later, rfl⟩
  exact run.split.2.2

theorem of_mem (run : Run process Initial steps state) (member : step ∈ steps) :
    ∃ earlier, Run process Initial earlier step.before ∧
      process step.before step.request = .ok (step.after, step.output) ∧
      Run process Initial (step :: earlier) step.after ∧ step :: earlier <:+ steps := by
  rcases List.append_of_mem member with ⟨later, earlier, rfl⟩
  rcases run.split with ⟨before, success, after⟩
  exact ⟨earlier, before, success, after, List.suffix_append later _⟩

end Run

/-- Executes requests one after the other, and returns the steps with the last state. -/
def execute (process : State → Request → Except Failure (State × Output)) :
    List (Step State Request Output) → State → List Request →
      Except Failure (List (Step State Request Output) × State)
  | steps, state, [] => .ok (steps, state)
  | steps, state, request :: requests =>
      match process state request with
      | .error failure => .error failure
      | .ok (after, output) =>
          execute process ({ before := state, request, after, output } :: steps) after requests

theorem run_of_execute {requests : List Request} {final : List (Step State Request Output)}
    {last : State} (run : Run process Initial steps state)
    (executed : execute process steps state requests = .ok (final, last)) :
    Run process Initial final last := by
  induction requests generalizing steps state with
  | nil =>
      simp only [execute, Except.ok.injEq, Prod.mk.injEq] at executed
      rcases executed with ⟨rfl, rfl⟩
      exact run
  | cons request requests ih =>
      simp only [execute] at executed
      split at executed
      · cases executed
      · rename_i success
        exact ih (.step run success) executed

theorem map_request_of_execute {requests : List Request}
    {final : List (Step State Request Output)} {last : State}
    (executed : execute process steps state requests = .ok (final, last)) :
    final.map Step.request = requests.reverse ++ steps.map Step.request := by
  induction requests generalizing steps state with
  | nil =>
      simp only [execute, Except.ok.injEq, Prod.mk.injEq] at executed
      rcases executed with ⟨rfl, rfl⟩
      rfl
  | cons request requests ih =>
      simp only [execute] at executed
      split at executed
      · cases executed
      · rw [ih executed, List.map_cons, List.reverse_cons, List.append_assoc]
        rfl

end

end History
