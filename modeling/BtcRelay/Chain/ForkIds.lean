import BtcRelay.Network.Replay

/-!
# Fork ids

A fork gets its id from the counter of the main state when it is submitted: a short fork
when it is adopted, a long fork when its account is opened. Both handlers advance the
counter past the id, and an account that was closed can only be opened again with the id
that the counter has by then, so no id is assigned twice.
-/

namespace BtcRelay

open Exec History

/-- The fork id that a successful step assigns. -/
def assigned? (step : RelayStep) : Option UInt64 :=
  match step.request.instruction with
  | .submitShortForkHeaders _ _ => step.before.mainState.map MainState.forkCounter
  | .submitForkHeaders _ _ forkId true => some forkId
  | _ => none

/-- The fork ids that the steps of a run assign. -/
def assigned (steps : List RelayStep) : List UInt64 :=
  steps.filterMap assigned?

/-- What a step does to the fork counter and to the set of open fork accounts. -/
inductive CountsFork (step : RelayStep) (main next : MainState) : Prop
  | unassigned (none : assigned? step = none) (counter : next.forkCounter = main.forkCounter)
      (accounts : ∀ forkId signer, step.after.forkState forkId signer ≠ .none →
        step.before.forkState forkId signer ≠ .none)
  | assigns (some : assigned? step = some main.forkCounter)
      (counter : next.forkCounter.toNat = main.forkCounter.toNat + 1)
      (accounts : ∀ forkId signer, step.after.forkState forkId signer ≠ none →
        step.before.forkState forkId signer ≠ none ∨
          forkId = main.forkCounter ∧ ∃ base, step.request.opening? = .some (forkId, signer, base))

section

variable {rt : Runtime} {steps : List RelayStep} {step : RelayStep} {ledger : Ledger}
  {main next : MainState}

theorem mainState_ne_of_shortFork {data : List BlockHeader} {base : CommittedBlockHeader}
    (success : process rt step.before step.request = .ok (step.after, step.output))
    (instruction : step.request.instruction = .submitShortForkHeaders data base) :
    step.after.mainState ≠ step.before.mainState := by
  simp only [process, instruction, bind_eq_ok_iff, load_eq_ok_iff, Except.ok.injEq, Prod.exists,
    Prod.mk.injEq] at success
  rcases success with ⟨main, present, next, _, submitted, updated, _⟩
  rcases submitShortForkHeaders_spec submitted with ⟨_, _, _, _, _, _, _, counter, _⟩
  intro unchanged
  rw [← updated, present, Option.some.injEq] at unchanged
  rw [unchanged] at counter
  omega

theorem assigned?_eq_none
    (short : ∀ data base, step.request.instruction ≠ .submitShortForkHeaders data base)
    (long : ∀ data base forkId,
      step.request.instruction ≠ .submitForkHeaders data base forkId true) :
    assigned? step = none := by
  simp only [assigned?]

theorem ne_none_of_setFork {account : Option ForkState} {forkId id : UInt64} {signer owner : Pubkey}
    (accountOpen : (ledger.setFork forkId signer account).forkState id owner ≠ none) :
    ledger.forkState id owner ≠ none ∨ id = forkId ∧ owner = signer ∧ account ≠ none := by
  simp only [Ledger.setFork] at accountOpen
  split at accountOpen
  · rename_i same
    exact Or.inr ⟨same.1, same.2, accountOpen⟩
  · exact Or.inl accountOpen

/-- Every step on a started chain counts the fork that it assigns an id to. -/
theorem countsFork_of_process
    (success : process rt step.before step.request = .ok (step.after, step.output))
    (present : step.before.mainState = some main) :
    ∃ next, step.after.mainState = some next ∧ CountsFork step main next := by
  have chainStep := chainStep_of_process success
  generalize step.output.filterMap Event.header? = children at chainStep
  cases chainStep with
  | created _ absent =>
      rw [present] at absent
      cases absent
  | extend instruction here updated forks _ _ _ _ counter =>
      cases present.symm.trans here
      refine ⟨_, updated, .unassigned ?_ counter ?_⟩
      · apply assigned?_eq_none
        · simp [instruction]
        · simp [instruction]
      · rw [forks]
        exact fun _ _ => id
  | shortFork instruction here updated forks _ _ _ _ _ counter =>
      cases present.symm.trans here
      refine ⟨_, updated, .assigns ?_ counter ?_⟩
      · simp only [assigned?, instruction, present, Option.map_some]
      · rw [forks]
        exact fun _ _ => Or.inl
  | @fork _ opened next forkState filled account data base tip forkId init _ instruction here
      updated forks opens _ _ _ _ _ ends =>
      cases present.symm.trans here
      have counter : next.forkCounter = opened.forkCounter := by
        cases ends with
        | adopted _ _ _ counter => exact counter
        | kept => rfl
      refine ⟨next, updated, ?_⟩
      cases opens with
      | opened inits absent sameId counted =>
          refine .assigns ?_ ?_ ?_
          · simp only [assigned?, instruction, inits, sameId]
          · rw [counter, counted, sameId]
          · intro id owner accountOpen
            rw [forks] at accountOpen
            rcases ne_none_of_setFork accountOpen with before | ⟨rfl, rfl, _⟩
            · exact Or.inl before
            · refine Or.inr ⟨sameId.symm, base, ?_⟩
              simp only [Request.opening?, instruction, inits]
      | continued continues found initialized =>
          refine .unassigned ?_ counter ?_
          · apply assigned?_eq_none
            · simp [instruction]
            · simp [instruction, continues]
          · intro id owner accountOpen
            rw [forks] at accountOpen
            rcases ne_none_of_setFork accountOpen with before | ⟨rfl, rfl, _⟩
            · exact before
            · rw [found]
              simp
  | @close forkId instruction unchanged forks =>
      refine ⟨main, unchanged.trans present, .unassigned ?_ rfl ?_⟩
      · apply assigned?_eq_none
        · simp [instruction]
        · simp [instruction]
      · intro id owner accountOpen
        rw [forks] at accountOpen
        rcases ne_none_of_setFork accountOpen with before | ⟨_, _, closed⟩
        · exact before
        · exact absurd rfl closed
  | idle instruction unchanged forks =>
      refine ⟨main, unchanged.trans present, .unassigned ?_ rfl ?_⟩
      · apply assigned?_eq_none
        · intro data base short
          exact mainState_ne_of_shortFork success short unchanged
        · intro data base forkId
          exact instruction data base forkId true
      · rw [forks]
        exact fun _ _ => id

/-- The fork ids in use come from the counter, and each was assigned once. -/
structure ForkIdsFresh (steps : List RelayStep) (ledger : Ledger) : Prop where
  unstarted : ledger.mainState = none →
    assigned steps = [] ∧ ∀ forkId signer, ledger.forkState forkId signer = none
  below : ∀ main, ledger.mainState = some main →
    ∀ forkId ∈ assigned steps, forkId < main.forkCounter
  accounts : ∀ forkId signer, ledger.forkState forkId signer ≠ none → forkId ∈ assigned steps
  nodup : (assigned steps).Nodup

theorem assigned_cons_of_none (none : assigned? step = none) :
    assigned (step :: steps) = assigned steps := by
  simp only [assigned, List.filterMap_cons, none]

theorem assigned_cons_of_some {forkId : UInt64} (some : assigned? step = some forkId) :
    assigned (step :: steps) = forkId :: assigned steps := by
  simp only [assigned, List.filterMap_cons, some]

theorem ForkIdsFresh.step_of_absent (fresh : ForkIdsFresh steps step.before)
    (success : process rt step.before step.request = .ok (step.after, step.output))
    (absent : step.before.mainState = none) : ForkIdsFresh (step :: steps) step.after := by
  rcases fresh.unstarted absent with ⟨unassigned, noForks⟩
  have chainStep := chainStep_of_process success
  generalize step.output.filterMap Event.header? = children at chainStep
  have still (none : assigned? step = none)
      (forks : ∀ forkId signer, step.after.forkState forkId signer = .none) :
      ForkIdsFresh (step :: steps) step.after := by
    have same : assigned (step :: steps) = assigned steps := assigned_cons_of_none none
    refine ⟨fun _ => ⟨same.trans unassigned, forks⟩, ?_, ?_, ?_⟩
    · intro main present forkId member
      rw [same, unassigned] at member
      cases member
    · intro forkId signer accountOpen
      exact absurd (forks forkId signer) accountOpen
    · rw [same]
      exact fresh.nodup
  cases chainStep with
  | created instruction _ _ forks =>
      apply still
      · apply assigned?_eq_none
        · simp [instruction]
        · simp [instruction]
      · rw [forks]
        exact noForks
  | extend _ present => exact absurd (absent.symm.trans present) (by simp)
  | shortFork _ present => exact absurd (absent.symm.trans present) (by simp)
  | fork _ present => exact absurd (absent.symm.trans present) (by simp)
  | close instruction _ forks =>
      apply still
      · apply assigned?_eq_none
        · simp [instruction]
        · simp [instruction]
      · intro forkId signer
        rw [forks]
        simp only [Ledger.setFork]
        split
        · rfl
        · exact noForks forkId signer
  | idle instruction unchanged forks =>
      apply still
      · apply assigned?_eq_none
        · intro data base short
          exact mainState_ne_of_shortFork success short unchanged
        · intro data base forkId
          exact instruction data base forkId true
      · rw [forks]
        exact noForks

theorem ForkIdsFresh.extend (fresh : ForkIdsFresh steps step.before)
    (success : process rt step.before step.request = .ok (step.after, step.output)) :
    ForkIdsFresh (step :: steps) step.after := by
  cases present : step.before.mainState with
  | none => exact fresh.step_of_absent success present
  | some main =>
      have below := fresh.below main present
      rcases countsFork_of_process success present with ⟨next, updated, counts⟩
      cases counts with
      | unassigned none counter accounts =>
          have same : assigned (step :: steps) = assigned steps := assigned_cons_of_none none
          refine ⟨?_, ?_, ?_, ?_⟩
          · intro absent
            rw [updated] at absent
            cases absent
          · intro other here forkId member
            cases updated.symm.trans here
            rw [same] at member
            rw [counter]
            exact below forkId member
          · intro forkId signer accountOpen
            rw [same]
            exact fresh.accounts forkId signer (accounts forkId signer accountOpen)
          · rw [same]
            exact fresh.nodup
      | assigns some counter accounts =>
          have more : assigned (step :: steps) = _ := assigned_cons_of_some some
          have grows : main.forkCounter < next.forkCounter := by
            rw [UInt64.lt_iff_toNat_lt]
            omega
          refine ⟨?_, ?_, ?_, ?_⟩
          · intro absent
            rw [updated] at absent
            cases absent
          · intro other here forkId member
            cases updated.symm.trans here
            rw [more] at member
            rcases List.mem_cons.mp member with rfl | earlier
            · exact grows
            · exact UInt64.lt_trans (below forkId earlier) grows
          · intro forkId signer accountOpen
            rw [more]
            rcases accounts forkId signer accountOpen with before | ⟨rfl, _⟩
            · exact List.mem_cons_of_mem _ (fresh.accounts forkId signer before)
            · exact List.mem_cons_self
          · -- an id assigned before is below the counter, which is the new id
            rw [more, List.nodup_cons]
            refine ⟨?_, fresh.nodup⟩
            intro earlier
            exact UInt64.lt_irrefl _ (below _ earlier)

theorem forkIdsFresh_of_run (run : RelayRun rt steps ledger) : ForkIdsFresh steps ledger := by
  apply run.invariant
  · intro ledger initial
    refine ⟨fun _ => ⟨rfl, initial.forkState⟩, ?_, ?_, List.nodup_nil⟩
    · intro main _ forkId member
      cases member
    · intro forkId signer accountOpen
      exact absurd (initial.forkState forkId signer) accountOpen
  · intro steps before request after output _ fresh success
    exact @ForkIdsFresh.extend rt steps ⟨before, request, after, output⟩ fresh success

theorem forkCounter_le_of_run (run : RelayRun rt steps ledger) (member : step ∈ steps)
    (present : step.before.mainState = some main) :
    ∃ next, ledger.mainState = some next ∧ main.forkCounter ≤ next.forkCounter := by
  induction run with
  | start => cases member
  | @step steps before after request output run success ih =>
      have counted (first : MainState) (started : before.mainState = some first) :
          ∃ next, after.mainState = some next ∧ first.forkCounter ≤ next.forkCounter := by
        rcases @countsFork_of_process rt ⟨before, request, after, output⟩ first success started with
          ⟨next, updated, counts⟩
        refine ⟨next, updated, ?_⟩
        cases counts with
        | unassigned _ counter =>
            rw [counter]
            exact UInt64.le_refl _
        | assigns _ counter =>
            rw [UInt64.le_iff_toNat_le]
            omega
      rcases List.mem_cons.mp member with rfl | old
      · exact counted main present
      · rcases ih old with ⟨first, started, below⟩
        rcases counted first started with ⟨next, updated, above⟩
        exact ⟨next, updated, UInt64.le_trans below above⟩

theorem lt_forkCounter_of_run (run : RelayRun rt steps ledger)
    (present : ledger.mainState = some main) {forkId : UInt64} {signer : Pubkey}
    (accountOpen : ledger.forkState forkId signer ≠ none) : forkId < main.forkCounter := by
  have fresh := forkIdsFresh_of_run run
  exact fresh.below main present forkId (fresh.accounts forkId signer accountOpen)

/-- Open fork accounts have ids below the counter, which never decreases, and no id is assigned
twice. -/
theorem forkIds_of_run (run : RelayRun rt steps ledger) (present : ledger.mainState = some main) :
    (∀ forkId signer, ledger.forkState forkId signer ≠ none → forkId < main.forkCounter) ∧
      (∀ step ∈ steps, ∀ earlier, step.before.mainState = some earlier →
        earlier.forkCounter ≤ main.forkCounter) ∧
      (assigned steps).Nodup := by
  refine ⟨?_, ?_, (forkIdsFresh_of_run run).nodup⟩
  · intro forkId signer accountOpen
    exact lt_forkCounter_of_run run present accountOpen
  · intro step member earlier before
    rcases forkCounter_le_of_run run member before with ⟨next, updated, below⟩
    cases updated.symm.trans present
    exact below

end

section

open Sample

theorem forkIds_lostBase :
    (∀ forkId signer, (replay mainnet lostBase).2.forkState forkId signer ≠ none →
        forkId < (mainStateAfter mainnet lostBase).forkCounter) ∧
      (∀ step ∈ (replay mainnet lostBase).1, ∀ earlier, step.before.mainState = some earlier →
        earlier.forkCounter ≤ (mainStateAfter mainnet lostBase).forkCounter) ∧
      (assigned (replay mainnet lostBase).1).Nodup := by
  apply forkIds_of_run (run_replay mainnet lostBase)
  apply mainState_replay
  decide +kernel

end

end BtcRelay
