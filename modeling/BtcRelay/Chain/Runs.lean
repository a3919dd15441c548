import BtcRelay.Chain.Invariant

/-!
# Runs of the relay

A run starts before any account of the program exists. The invariant of the chain holds
in every state that a run reaches, under the hash assumptions about the headers that
occur in it: those accepted by its steps and those that callers supplied.
-/

namespace BtcRelay

open Exec CircularBuffer History

def Instruction.initial? : Instruction → Option CommittedBlockHeader
  | .initializeRelay header blockheight chainWork lastDiffAdjustment prevBlockTimestamps =>
      some { chainWork, header, lastDiffAdjustment, blockheight, prevBlockTimestamps }
  | _ => none

def Request.opening? (request : Request) : Option Opening :=
  match request.instruction with
  | .submitForkHeaders _ commitedHeader forkId true => some (forkId, request.signer, commitedHeader)
  | _ => none

section Step

variable {rt : Runtime} {headers known : Set CommittedBlockHeader} {openings : Set Opening}
  {main next : MainState} {before after : Ledger} {request : Request}
  {accepted : List CommittedBlockHeader}

/-- The headers accepted once the chain is started are on top of an earlier one. -/
theorem exists_isChain_of_chainStep (invariant : ChainInvariant rt headers openings before)
    (sound : SoundHashes rt known) (included : headers ⊆ known)
    (presented : ∀ committed, request.instruction.commitedHeader? = some committed →
      committed ∈ known)
    (present : before.mainState = some main)
    (step : ChainStep rt before after request accepted) :
    accepted = [] ∨ 250 ≤ main.blockHeight.toNat ∧
      ∃ base ∈ headers, (base :: accepted).IsChain (Extends rt) := by
  have mainInvariant := invariant.main main present
  cases step with
  | created instruction absent updated forks =>
      rw [present] at absent
      cases absent
  | @extend _ next data base tip _ instruction here updated forks batch committed =>
      cases present.symm.trans here
      have base_mem := presented base (by rw [instruction]; rfl)
      have member := mainInvariant.of_getCommitment sound included base_mem committed
      exact Or.inr ⟨member.2.2.2.1, base, member.1, batch.isChain⟩
  | @shortFork _ next data base tip _ instruction here updated forks batch committed =>
      cases present.symm.trans here
      have base_mem := presented base (by rw [instruction]; rfl)
      have member := mainInvariant.of_getCommitment sound included base_mem committed
      exact Or.inr ⟨member.2.2.2.1, base, member.1, batch.isChain⟩
  | @fork _ opened next forkState filled account data parent tip forkId init _ instruction here
      updated forks opens batch fields stored length room ends =>
      cases present.symm.trans here
      have parent_mem := presented parent (by rw [instruction]; rfl)
      rcases exists_forkHolds_of_forkOpens mainInvariant
        (fun forkState found => invariant.forks main forkId _ forkState present found)
        sound included parent_mem opens with ⟨base, earlier, holds, parent_eq, _, _⟩
      refine Or.inr ⟨holds.high, parent, ?_, batch.isChain⟩
      rw [parent_eq, List.getLastD_eq_getLast?]
      cases last : earlier.getLast? with
      | none => exact holds.base_mem
      | some block => exact holds.blocks_mem block (List.mem_of_getLast? last)
  | close => exact Or.inl rfl
  | idle => exact Or.inl rfl

theorem forkInvariant_of_chainStep (invariant : ChainInvariant rt headers openings before)
    (sound : SoundHashes rt known) (included : headers ⊆ known)
    (presented : ∀ committed, request.instruction.commitedHeader? = some committed →
      committed ∈ known)
    (present : before.mainState = some main)
    (step : ChainStep rt before after request accepted) {forkId : UInt64} {signer : Pubkey}
    {forkState : ForkState} (found : after.forkState forkId signer = some forkState) :
    before.forkState forkId signer = some forkState ∨
      ∃ base blocks, ForkInvariant rt (headers ∪ { c | c ∈ accepted }) main forkState base
        blocks ∧ (forkId, signer, base) ∈ openings ∪ { o | request.opening? = some o } := by
  cases step with
  | created instruction absent updated forks =>
      rw [present] at absent
      cases absent
  | extend instruction here updated forks =>
      rw [forks] at found
      exact Or.inl found
  | shortFork instruction here updated forks =>
      rw [forks] at found
      exact Or.inl found
  | @fork _ opened next current filled account data parent tip openId init _ instruction here
      updated forks opens batch fields stored length room ends =>
      cases present.symm.trans here
      rw [forks] at found
      simp only [Ledger.setFork] at found
      split at found
      · rename_i same
        have parent_mem := presented parent (by rw [instruction]; rfl)
        rcases exists_forkHolds_of_forkOpens (invariant.main main present)
          (fun forkState found => invariant.forks main openId _ forkState present found)
          sound included parent_mem opens with ⟨base, earlier, holds, parent_eq, _, source⟩
        have onTop := batch.isChain
        rw [parent_eq] at onTop
        have filledHolds := holds.append (headers.subset_union_left (t := { c | c ∈ accepted }))
          (fun _ => Or.inr) onTop fields stored length room
        cases ends with
        | adopted => cases found
        | kept lighter =>
            cases found
            refine Or.inr ⟨base, earlier ++ accepted,
              { filledHolds with tip := ⟨tip, ?_, rfl, rfl⟩ }, ?_⟩
            · rw [List.getLast?_append, batch.last, Option.some_or]
            · rcases same with ⟨rfl, rfl⟩
              rcases source with ⟨rfl, _, rfl, _⟩ | ⟨_, _, _, opening⟩
              · apply Or.inr
                simp only [Set.mem_ofPred_eq, Request.opening?, instruction, parent_eq]
                rfl
              · exact Or.inl opening
      · exact Or.inl found
  | close instruction unchanged forks =>
      rw [forks] at found
      simp only [Ledger.setFork] at found
      split at found
      · cases found
      · exact Or.inl found
  | idle instruction unchanged forks =>
      rw [forks] at found
      exact Or.inl found

theorem mainInvariant_initializeRelay (data : BlockHeader)
    (blockHeight lastDiffAdjustment : UInt32) (chainWork : Bytes32)
    (prevBlockTimestamps : List.Vector UInt32 10) :
    MainInvariant rt
      { ⟨chainWork, data, lastDiffAdjustment, blockHeight, prevBlockTimestamps⟩ }
      (initializeRelay rt data blockHeight chainWork lastDiffAdjustment
        prevBlockTimestamps).1 where
  tip := ⟨_, rfl, rfl, rfl, rfl, rfl, rfl⟩
  inside := by
    simp only [initializeRelay]
    omega
  stored := by
    intro kept
    have covers : (initializeRelay rt data blockHeight chainWork lastDiffAdjustment
        prevBlockTimestamps).1.buffer.Covers blockHeight.toNat := by
      constructor <;> simp only [MainState.buffer, initializeRelay, PRUNING_FACTOR] <;> omega
    have slot : (⟨_, covers.slotOf_lt⟩ : Fin PRUNING_FACTOR) = 0 := by
      apply Fin.ext
      simp [Buffer.slotOf, MainState.buffer, initializeRelay]
    simp only [initializeRelay] at covers slot ⊢
    rw [Buffer.read_of_covers covers, slot]
    simp only [MainState.buffer, List.Vector.get_set_same]
  entries := by
    intro commitment member
    simp only [initializeRelay, List.Vector.toList_set] at member
    rcases List.mem_or_eq_of_mem_set member with zero | same
    · exact Or.inl (List.eq_of_mem_replicate zero)
    · exact Or.inr ⟨_, rfl, same.symm⟩
  high := by
    rintro high _ rfl
    exact high

theorem ChainInvariant.step_of_absent (invariant : ChainInvariant rt headers openings before)
    (absent : before.mainState = none) (step : ChainStep rt before after request accepted) :
    ChainInvariant rt (headers ∪ { c | c ∈ accepted })
      (openings ∪ { o | request.opening? = some o }) after := by
  rcases invariant.unstarted absent with ⟨rfl, noForks⟩
  have still (unchanged : after.mainState = before.mainState)
      (forks : ∀ forkId signer, after.forkState forkId signer = none) :
      ChainInvariant rt (∅ ∪ { c | c ∈ ([] : List CommittedBlockHeader) })
        (openings ∪ { o | request.opening? = some o }) after := by
    rw [absent] at unchanged
    refine ⟨fun _ => ⟨by simp, forks⟩, ?_, ?_⟩
    · intro main present
      rw [unchanged] at present
      cases present
    · intro main _ _ _ present
      rw [unchanged] at present
      cases present
  cases step with
  | @created data blockHeight lastDiffAdjustment chainWork prevBlockTimestamps instruction _
      updated forks =>
      refine ⟨?_, ?_, ?_⟩
      · intro none
        rw [updated] at none
        cases none
      · intro main present
        rw [updated, Option.some.injEq] at present
        subst present
        have singleton : ∅ ∪ { c | c ∈ [(⟨chainWork, data, lastDiffAdjustment, blockHeight,
            prevBlockTimestamps⟩ : CommittedBlockHeader)] } =
            { ⟨chainWork, data, lastDiffAdjustment, blockHeight, prevBlockTimestamps⟩ } := by
          ext committed
          simp
        rw [singleton]
        exact mainInvariant_initializeRelay data blockHeight lastDiffAdjustment chainWork
          prevBlockTimestamps
      · intro main forkId signer forkState _ found
        rw [forks, noForks] at found
        cases found
  | extend instruction present => exact absurd (absent.symm.trans present) (by simp)
  | shortFork instruction present => exact absurd (absent.symm.trans present) (by simp)
  | fork instruction present => exact absurd (absent.symm.trans present) (by simp)
  | close instruction unchanged forks =>
      apply still unchanged
      intro forkId signer
      rw [forks]
      simp only [Ledger.setFork]
      split
      · rfl
      · exact noForks forkId signer
  | idle instruction unchanged forks =>
      apply still unchanged
      intro forkId signer
      rw [forks]
      exact noForks forkId signer

/-- What stays true of the main state while headers are accepted that do not move it. -/
theorem MainInvariant.mono {more : Set CommittedBlockHeader} {forkCounter : UInt64}
    (invariant : MainInvariant rt headers main) (included : headers ⊆ more)
    (high : 250 ≤ main.blockHeight.toNat →
      ∀ committed ∈ more, 250 ≤ committed.blockheight.toNat) :
    MainInvariant rt more { main with forkCounter } where
  tip := by
    rcases invariant.tip with ⟨tip, tipMem, isTip⟩
    exact ⟨tip, included tipMem, isTip.1, isTip.2, isTip.3, isTip.4, isTip.5⟩
  inside := invariant.inside
  stored := invariant.stored
  entries := by
    intro commitment member
    rcases invariant.entries commitment member with empty | ⟨committed, committedMem, same⟩
    · exact Or.inl empty
    · exact Or.inr ⟨committed, included committedMem, same⟩
  high := high

/-- Where no header so far is below height 250, no accepted one is. -/
theorem ChainInvariant.high_of_chainStep (invariant : ChainInvariant rt headers openings before)
    (sound : SoundHashes rt known) (included : headers ⊆ known)
    (presented : ∀ committed, request.instruction.commitedHeader? = some committed →
      committed ∈ known)
    (present : before.mainState = some main)
    (step : ChainStep rt before after request accepted) (atLeast : 250 ≤ main.blockHeight.toNat)
    (committed : CommittedBlockHeader) (member : committed ∈ headers ∪ { c | c ∈ accepted }) :
    250 ≤ committed.blockheight.toNat := by
  have mainInvariant := invariant.main main present
  rcases member with earlier | new
  · exact mainInvariant.high atLeast committed earlier
  · rcases exists_isChain_of_chainStep invariant sound included presented present step with
      rfl | ⟨_, base, base_mem, chain⟩
    · cases new
    · have below := mainInvariant.high atLeast base base_mem
      have above := height_of_mem_of_isChain chain new
      omega

/-- The invariant goes over to the main state that a step ends in, with all fork accounts. -/
theorem ChainInvariant.step_to (invariant : ChainInvariant rt headers openings before)
    (sound : SoundHashes rt known) (included : headers ⊆ known)
    (presented : ∀ committed, request.instruction.commitedHeader? = some committed →
      committed ∈ known)
    (present : before.mainState = some main)
    (step : ChainStep rt before after request accepted) (updated : after.mainState = some next)
    (nextInvariant : MainInvariant rt (headers ∪ { c | c ∈ accepted }) next)
    (later : main.startHeight.toNat ≤ next.startHeight.toNat)
    (stays : 250 ≤ main.blockHeight.toNat → 250 ≤ next.blockHeight.toNat) :
    ChainInvariant rt (headers ∪ { c | c ∈ accepted })
      (openings ∪ { o | request.opening? = some o }) after := by
  refine ⟨?_, ?_, ?_⟩
  · intro none
    rw [updated] at none
    cases none
  · intro other here
    cases updated.symm.trans here
    exact nextInvariant
  · intro other forkId signer forkState here found
    cases updated.symm.trans here
    rcases forkInvariant_of_chainStep invariant sound included presented present step found
      with old | ⟨base, blocks, fork, opening⟩
    · rcases invariant.forks main forkId signer forkState present old with
        ⟨base, blocks, fork, opening⟩
      have more : headers ⊆ headers ∪ { c | c ∈ accepted } := headers.subset_union_left
      exact ⟨base, blocks, { fork.toForkHolds.mono more later (stays fork.high) with
        tip := fork.tip }, Or.inl opening⟩
    · exact ⟨base, blocks, { fork.toForkHolds.mono subset_rfl later (stays fork.high) with
        tip := fork.tip }, opening⟩

theorem ChainInvariant.step (invariant : ChainInvariant rt headers openings before)
    (sound : SoundHashes rt known) (included : headers ⊆ known)
    (presented : ∀ committed, request.instruction.commitedHeader? = some committed →
      committed ∈ known)
    (step : ChainStep rt before after request accepted) :
    ChainInvariant rt (headers ∪ { c | c ∈ accepted })
      (openings ∪ { o | request.opening? = some o }) after := by
  cases present : before.mainState with
  | none => exact invariant.step_of_absent present step
  | some main =>
      have more : headers ⊆ headers ∪ { c | c ∈ accepted } := headers.subset_union_left
      have mainInvariant := invariant.main main present
      have high := invariant.high_of_chainStep sound included presented present step
      have advance {next : MainState} {base tip : CommittedBlockHeader}
          {blocks : List CommittedBlockHeader} (updated : after.mainState = some next)
          (advances : Advances rt main base blocks tip next)
          (blocks_mem : ∀ block ∈ blocks, block ∈ headers ∪ { c | c ∈ accepted })
          (atLeast : 250 ≤ main.blockHeight.toNat) :
          ChainInvariant rt (headers ∪ { c | c ∈ accepted })
            (openings ∪ { o | request.opening? = some o })
            after := by
        have nextInvariant :=
          advances.mainInvariant mainInvariant more blocks_mem (high atLeast)
        apply invariant.step_to sound included presented present step updated nextInvariant
          advances.startHeight_le
        intro _
        rw [advances.blockHeight]
        exact high atLeast tip (blocks_mem tip advances.tip_mem)
      cases mainStep_of_chainStep invariant sound included presented step with
      | created instruction absent =>
          rw [present] at absent
          cases absent
      | unmoved _ unchanged =>
          rw [present] at unchanged
          have same : MainInvariant rt (headers ∪ { c | c ∈ accepted })
              { main with forkCounter := main.forkCounter } := mainInvariant.mono more high
          exact invariant.step_to sound included presented present step unchanged same
            (le_refl _) id
      | kept _ here updated =>
          cases present.symm.trans here
          exact invariant.step_to sound included presented present step updated
            (mainInvariant.mono more high) (le_refl _) id
      | committed instruction here updated base_mem advances length commitment =>
          cases present.symm.trans here
          have held := mainInvariant.of_getCommitment sound included (included base_mem) commitment
          exact advance updated advances (fun _ => Or.inr) held.2.2.2.1
      | adopted instruction here updated outweighing base_mem earlier_mem parent_eq advances length
          account heavier room =>
          cases present.symm.trans here
          apply advance updated advances
          · intro block member
            rcases List.mem_append.mp member with old | new
            · exact Or.inl (earlier_mem block old)
            · exact Or.inr new
          · rcases account with ⟨_, _, _, commitment⟩ | ⟨_, _, fork, _⟩
            · exact (mainInvariant.of_getCommitment sound included (included base_mem)
                commitment).2.2.2.1
            · exact fork.high

end Step

/-- A ledger without any account of the program. -/
structure Ledger.Fresh (ledger : Ledger) : Prop where
  mainState : ledger.mainState = none
  forkState : ∀ forkId signer, ledger.forkState forkId signer = none
  txAccount : ∀ txId, ledger.txAccount txId = none
  depositAccount : ledger.depositAccount = none

/-- A successful instruction in a run. -/
abbrev RelayStep := Step Ledger Request (List Event)

/-- The runs of the program, each with its steps, the newest first, and the ledger it reaches. -/
abbrev RelayRun (rt : Runtime) : List RelayStep → Ledger → Prop := Run (process rt) Ledger.Fresh

/-- The committed headers accepted by the steps of a run. -/
def accepted (steps : List RelayStep) : List CommittedBlockHeader :=
  steps.flatMap fun step => step.output.filterMap Event.header?

def presented (steps : List RelayStep) : List CommittedBlockHeader :=
  steps.filterMap fun step => step.request.instruction.commitedHeader?

/-- The committed headers that occur in a run. -/
def occurring (steps : List RelayStep) : Set CommittedBlockHeader :=
  { committed | committed ∈ accepted steps ∨ committed ∈ presented steps }

def openings (steps : List RelayStep) : List Opening :=
  steps.filterMap fun step => step.request.opening?

section Runs

variable {rt : Runtime} {steps earlier : List RelayStep} {step : RelayStep} {ledger : Ledger}
  {known : Set CommittedBlockHeader}

theorem accepted_cons (step : RelayStep) (steps : List RelayStep) :
    accepted (step :: steps) = step.output.filterMap Event.header? ++ accepted steps := rfl

theorem accepted_mono (suffix : earlier <:+ steps) : accepted earlier ⊆ accepted steps := by
  rcases suffix with ⟨later, rfl⟩
  intro committed member
  simp only [accepted, List.flatMap_append]
  exact List.mem_append_right _ member

theorem occurring_mono (suffix : earlier <:+ steps) : occurring earlier ⊆ occurring steps := by
  rintro committed (member | member)
  · exact Or.inl (accepted_mono suffix member)
  · exact Or.inr ((suffix.filterMap _).subset member)

theorem occurring_append_subset {later : List RelayStep}
    (accepts : ∀ committed ∈ accepted later, committed ∈ known)
    (presents : ∀ committed ∈ presented later, committed ∈ known)
    (before : occurring earlier ⊆ known) : occurring (later ++ earlier) ⊆ known := by
  rintro committed (member | member)
  · simp only [accepted, List.flatMap_append, List.mem_append] at member
    rcases member with new | old
    · exact accepts committed new
    · exact before (Or.inl old)
  · simp only [presented, List.filterMap_append, List.mem_append] at member
    rcases member with new | old
    · exact presents committed new
    · exact before (Or.inr old)

theorem mem_occurring_of_commitedHeader? {committed : CommittedBlockHeader}
    (supplied : step.request.instruction.commitedHeader? = some committed) :
    committed ∈ occurring (step :: steps) := by
  apply Or.inr
  simp only [presented, List.filterMap_cons, supplied]
  exact List.mem_cons_self

theorem chainInvariant_of_run (run : RelayRun rt steps ledger)
    (sound : SoundHashes rt (occurring steps)) :
    ChainInvariant rt { c | c ∈ accepted steps } { o | o ∈ openings steps } ledger := by
  revert sound
  apply run.invariant (motive := fun steps ledger => SoundHashes rt (occurring steps) →
    ChainInvariant rt { c | c ∈ accepted steps } { o | o ∈ openings steps } ledger)
  · intro ledger fresh _
    refine ⟨fun _ => ⟨?_, fresh.forkState⟩, ?_, ?_⟩
    · ext committed
      simp [accepted]
    · intro main present
      rw [fresh.mainState] at present
      cases present
    · intro main _ _ _ present
      rw [fresh.mainState] at present
      cases present
  · intro steps before request after output _ ih success sound
    have invariant := ih (sound.mono (occurring_mono (List.suffix_cons _ _)))
    have next := invariant.step sound
      (fun _ member => Or.inl (accepted_mono (List.suffix_cons _ _) member))
      (fun _ supplied => mem_occurring_of_commitedHeader? supplied)
      (chainStep_of_process success)
    have same : { c | c ∈ accepted steps } ∪ { c | c ∈ output.filterMap Event.header? } =
        { c | c ∈ accepted ({ before, request, after, output } :: steps) } := by
      ext committed
      simp only [accepted_cons, Set.mem_union, Set.mem_ofPred_eq, List.mem_append]
      exact or_comm
    have opened : { o | o ∈ openings steps } ∪ { o | request.opening? = some o } =
        { o | o ∈ openings ({ before, request, after, output } :: steps) } := by
      ext opening
      simp only [openings, Set.mem_union, Set.mem_ofPred_eq, List.mem_filterMap, List.mem_cons,
        exists_eq_or_imp]
      exact or_comm
    rw [same, opened] at next
    exact next

theorem mainStep_of_run (run : RelayRun rt (step :: earlier) ledger)
    (sound : SoundHashes rt (occurring (step :: earlier))) :
    MainStep rt { c | c ∈ accepted earlier } { o | o ∈ openings earlier } step.before step.after
      step.request
      (step.output.filterMap Event.header?) := by
  rcases run.of_cons with ⟨before, success, _⟩
  have invariant :=
    chainInvariant_of_run before (sound.mono (occurring_mono (List.suffix_cons _ _)))
  exact mainStep_of_chainStep invariant sound
    (fun _ member => Or.inl (accepted_mono (List.suffix_cons _ _) member))
    (fun _ supplied => mem_occurring_of_commitedHeader? supplied)
    (chainStep_of_process success)

end Runs

end BtcRelay
