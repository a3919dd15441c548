import BtcRelay.Chain.LightClientSoundness
import BtcRelay.Foundations.HeightLog
import BtcRelay.Network.EasyBlocks

/-!
# The ring buffer as a window

The ring buffer should show, for each of the last 250 heights, the commitment most recently
stored for it, and nothing for heights before the initial one. It does as long as an adopted
fork does not lower the block height, or replaces all 250 heights. A fork that lowers the
block height leaves commitments of the heights above it in the slots of lower heights.
-/

namespace BtcRelay

open Exec CircularBuffer History

/-- The height that a submission to a fork account is based on in the main chain, and the
commitments that the account holds so far. -/
def forkSoFar (step : RelayStep) (forkId : UInt64) (commitedHeader : CommittedBlockHeader) :
    ℕ × List Bytes32 :=
  match step.before.forkState forkId step.request.signer with
  | none => (commitedHeader.blockheight.toNat, [])
  | some forkState => (forkState.startHeight.toNat, forkState.stored)

/-- The commitments that a step stores in the ring buffer, each with the height that it is stored
for, in the order of the stores. -/
def storedBy (rt : Runtime) (step : RelayStep) : List (ℕ × Bytes32) :=
  let commitments := (step.output.filterMap Event.header?).map
    (CommittedBlockHeader.getCommitHash rt)
  match step.request.instruction, step.before.mainState with
  | .initializeRelay _ blockHeight _ _ _, _ =>
      commitments.map fun commitment => (blockHeight.toNat, commitment)
  | .submitBlockHeaders _ _, some main => numbered main.blockHeight.toNat commitments
  | .submitShortForkHeaders _ commitedHeader, _ =>
      numbered commitedHeader.blockheight.toNat commitments
  | .submitForkHeaders data commitedHeader forkId _, some main =>
      if outweighs main commitedHeader data then
        numbered (forkSoFar step forkId commitedHeader).1
          ((forkSoFar step forkId commitedHeader).2 ++ commitments)
      else []
  | _, _ => []

/-- All that the steps of a run have stored in the ring buffer, the newest first. -/
def storeLog (rt : Runtime) (steps : List RelayStep) : List (ℕ × Bytes32) :=
  steps.flatMap fun step => (storedBy rt step).reverse

/-- The ring buffer is the window of the last 250 heights on what has been stored since the
initial height. -/
structure WindowExact (initialHeight : UInt32) (log : List (ℕ × Bytes32)) (main : MainState) :
    Prop where
  stored : ∀ height : UInt32, initialHeight ≤ height → height ≤ main.blockHeight →
    main.blockHeight.toNat < height.toNat + 250 → ∃ commitment,
      log.lookup height.toNat = some commitment ∧ main.getCommitment height = .ok commitment ∧
      commitment ≠ emptyArray ∧
      ∀ other found, (other, found) ∈ log → other ≠ height.toNat → found ≠ commitment
  outside : ∀ height : UInt32, ¬(initialHeight ≤ height ∧ height ≤ main.blockHeight ∧
    main.blockHeight.toNat < height.toNat + 250) → main.getCommitment height = .ok emptyArray

/-- A fork from a base to a tip that keeps the ring buffer a window: it starts on the main chain
and does not lower the block height, or it replaces everything in the ring buffer. -/
def MainState.FitsWindow (main : MainState) (base tip : ℕ) : Prop :=
  base ≤ main.blockHeight.toNat ∧ main.blockHeight.toNat ≤ tip ∨
    base + 250 ≤ tip ∧ main.startHeight.toNat ≤ tip

/-- If the step submits a fork with more work than the main chain, the fork fits the window. -/
def AdoptsFitting (step : RelayStep) : Prop :=
  ∀ main, step.before.mainState = some main →
    (∀ data commitedHeader,
      step.request.instruction = .submitShortForkHeaders data commitedHeader →
      main.FitsWindow commitedHeader.blockheight.toNat
        (commitedHeader.blockheight.toNat + data.length)) ∧
    ∀ data commitedHeader forkId init,
      step.request.instruction = .submitForkHeaders data commitedHeader forkId init →
      outweighs main commitedHeader data = true →
      main.FitsWindow (forkSoFar step forkId commitedHeader).1
        (commitedHeader.blockheight.toNat + data.length)

def StartsAt (initialHeight : UInt32) (steps : List RelayStep) : Prop :=
  ∀ step ∈ steps, ∀ initial, step.request.instruction.initial? = some initial →
    initial.blockheight = initialHeight

/-- What a step stores, in terms of committed headers. -/
inductive StoreStep (rt : Runtime) (headers : Set CommittedBlockHeader) (step : RelayStep) : Prop
  | created {data : BlockHeader} {blockHeight lastDiffAdjustment : UInt32} {chainWork : Bytes32}
      {prevBlockTimestamps : List.Vector UInt32 10}
      (instruction : step.request.instruction = .initializeRelay data blockHeight chainWork
        lastDiffAdjustment prevBlockTimestamps)
      (absent : step.before.mainState = none)
      (updated : step.after.mainState = some (initializeRelay rt data blockHeight chainWork
        lastDiffAdjustment prevBlockTimestamps).1)
      (accepted_eq : step.output.filterMap Event.header? =
        [⟨chainWork, data, lastDiffAdjustment, blockHeight, prevBlockTimestamps⟩])
      (stored : storedBy rt step = [(blockHeight.toNat, CommittedBlockHeader.getCommitHash rt
        ⟨chainWork, data, lastDiffAdjustment, blockHeight, prevBlockTimestamps⟩)])
  | unmoved (stored : storedBy rt step = [])
      (main_eq : ∀ next, step.after.mainState = some next → ∃ main,
        step.before.mainState = some main ∧ next = { main with forkCounter := next.forkCounter })
  | moved {main next : MainState} {base tip : CommittedBlockHeader}
      {blocks : List CommittedBlockHeader} (present : step.before.mainState = some main)
      (updated : step.after.mainState = some next) (base_mem : base ∈ headers)
      (blocks_mem : ∀ block ∈ blocks,
        block ∈ headers ∨ block ∈ step.output.filterMap Event.header?)
      (advances : Advances rt main base blocks tip next)
      (stored : storedBy rt step = numbered base.blockheight.toNat
        (blocks.map (CommittedBlockHeader.getCommitHash rt)))
      (fits : AdoptsFitting step →
        main.FitsWindow base.blockheight.toNat next.blockHeight.toNat)

section

variable {rt : Runtime} {steps earlier : List RelayStep} {step : RelayStep} {ledger : Ledger}
  {main : MainState} {initialHeight : UInt32}

theorem storeStep_of_run (run : RelayRun rt (step :: earlier) ledger)
    (sound : SoundHashes rt (occurring (step :: earlier))) :
    StoreStep rt { c | c ∈ accepted earlier } step := by
  rcases run.of_cons with ⟨before, success, _⟩
  have step_cases := mainStep_of_run run sound
  generalize acceptedEq : step.output.filterMap Event.header? = accepted at step_cases
  cases step_cases with
  | created instruction absent updated accepted_eq =>
      refine .created instruction absent updated (acceptedEq.trans accepted_eq) ?_
      simp only [storedBy, instruction, acceptedEq, accepted_eq]
      rfl
  | unmoved instruction unchanged accepted_eq =>
      refine .unmoved ?_ ?_
      · simp only [storedBy, acceptedEq, accepted_eq, List.map_nil, numbered]
        split
        · rfl
        · rfl
        · rfl
        · rename_i fork _
          exact absurd fork (instruction _ _ _ _)
        · rfl
      · intro next updated
        rw [unchanged] at updated
        exact ⟨next, updated, rfl⟩
  | kept instruction present updated outweighed =>
      refine .unmoved ?_ ?_
      · simp only [storedBy, instruction, present, outweighed]
        rfl
      · intro next found
        cases updated.symm.trans found
        exact ⟨_, present, rfl⟩
  | @committed main next data base tip instruction present updated base_mem advances length
      commitment =>
      refine .moved present updated base_mem ?_ advances ?_ ?_
      · intro block member
        rw [acceptedEq]
        exact Or.inr member
      · rcases instruction with ⟨instruction, isTip⟩ | ⟨instruction, _⟩
        · simp only [storedBy, instruction, present, acceptedEq, isTip.blockHeight]
        · simp only [storedBy, instruction, acceptedEq]
      · intro fitting
        rcases instruction with ⟨_, isTip⟩ | ⟨instruction, _⟩
        · have height := advances.height
          rw [← isTip.blockHeight] at height ⊢
          exact Or.inl ⟨le_refl _, by omega⟩
        · have fits := (fitting main present).1 data base instruction
          rw [← length, ← advances.height] at fits
          exact fits
  | @adopted main next data base parent tip blocks forkId init instruction present updated
      outweighing base_mem earlier_mem parent_eq advances length account heavier room =>
      have soFar : forkSoFar step forkId parent =
          (base.blockheight.toNat, blocks.map (CommittedBlockHeader.getCommitHash rt)) := by
        rcases account with ⟨rfl, absent, _, _⟩ | ⟨forkState, found, fork, _⟩
        · simp only [forkSoFar, absent, parent_eq]
          rfl
        · simp only [forkSoFar, found, fork.startHeight, fork.stored]
      refine .moved present updated base_mem ?_ advances ?_ ?_
      · intro block member
        rw [acceptedEq]
        rcases List.mem_append.mp member with old | new
        · exact Or.inl (earlier_mem block old)
        · exact Or.inr new
      · simp only [storedBy, instruction, present, if_pos outweighing, soFar, acceptedEq,
          List.map_append]
      · intro fitting
        have fits := (fitting main present).2 data parent forkId init instruction outweighing
        rw [soFar, ← advances.height_of_parent parent_eq length] at fits
        exact fits

theorem le_blockheight_of_run (run : RelayRun rt steps ledger)
    (sound : SoundHashes rt (occurring steps)) (starts : StartsAt initialHeight steps) :
    ∀ committed ∈ accepted steps, initialHeight.toNat ≤ committed.blockheight.toNat := by
  induction run with
  | start fresh =>
      intro committed member
      cases member
  | @step steps before after request output run success ih =>
      have suffix := List.suffix_cons (⟨before, request, after, output⟩ : RelayStep) steps
      have older := ih (sound.mono (occurring_mono suffix))
        (fun step member => starts step (List.mem_cons_of_mem _ member))
      intro committed member
      rw [accepted_cons, List.mem_append] at member
      rcases member with new | old
      · rcases accepted_of_run (.step run success) sound with
          ⟨initial, started, only⟩ | none | ⟨base, base_mem, chain⟩
        · rw [only, List.mem_singleton] at new
          rw [new, starts _ List.mem_cons_self initial started]
        · rw [none] at new
          cases new
        · have above := height_of_mem_of_isChain chain new
          have below := older base base_mem
          omega
      · exact older committed old

theorem storeLog_cons (step : RelayStep) (steps : List RelayStep) :
    storeLog rt (step :: steps) = (storedBy rt step).reverse ++ storeLog rt steps := rfl

/-- Whatever is stored for a height is the commitment of an accepted header of that height. -/
theorem exists_of_mem_storeLog (run : RelayRun rt steps ledger)
    (sound : SoundHashes rt (occurring steps)) {height : ℕ} {commitment : Bytes32}
    (member : (height, commitment) ∈ storeLog rt steps) :
    ∃ committed ∈ accepted steps, committed.blockheight.toNat = height ∧
      committed.getCommitHash rt = commitment := by
  induction run with
  | start fresh => cases member
  | @step steps before after request output run success ih =>
      have suffix := List.suffix_cons (⟨before, request, after, output⟩ : RelayStep) steps
      rw [storeLog_cons, List.mem_append, List.mem_reverse] at member
      rcases member with new | old
      · cases storeStep_of_run (.step run success) sound with
        | created _ _ _ accepted_eq stored =>
            rw [stored, List.mem_singleton, Prod.mk.injEq] at new
            rcases new with ⟨rfl, rfl⟩
            refine ⟨_, ?_, rfl, rfl⟩
            rw [accepted_cons, accepted_eq]
            exact List.mem_cons_self
        | unmoved stored =>
            rw [stored] at new
            cases new
        | @moved main next base tip blocks _ _ _ blocks_mem advances stored =>
            rw [stored] at new
            rcases exists_of_mem_numbered new with ⟨i, inRange, heights, found⟩
            rw [List.getElem_map] at found
            rw [List.length_map] at inRange
            refine ⟨blocks[i], ?_, ?_, found⟩
            · rw [accepted_cons, List.mem_append]
              exact (blocks_mem _ (List.getElem_mem inRange)).symm
            · rw [height_getElem_of_isChain advances.chain inRange, heights]
      · rcases ih (sound.mono (occurring_mono suffix)) old with ⟨committed, earlier, rest⟩
        exact ⟨committed, accepted_mono suffix earlier, rest⟩

theorem shows_initializeRelay (data : BlockHeader) (blockHeight lastDiffAdjustment : UInt32)
    (chainWork : Bytes32) (prevBlockTimestamps : List.Vector UInt32 10) :
    (initializeRelay rt data blockHeight chainWork lastDiffAdjustment
        prevBlockTimestamps).1.buffer.Shows
      [(blockHeight.toNat, CommittedBlockHeader.getCommitHash rt
        ⟨chainWork, data, lastDiffAdjustment, blockHeight, prevBlockTimestamps⟩)] emptyArray
      blockHeight.toNat where
  start_le := le_refl _
  shown := by
    intro height upTo recent
    have covers : (initializeRelay rt data blockHeight chainWork lastDiffAdjustment
        prevBlockTimestamps).1.buffer.Covers height := by
      constructor <;> simp only [MainState.buffer, initializeRelay, PRUNING_FACTOR] <;> omega
    rw [Buffer.read_of_covers covers]
    by_cases same : height = blockHeight.toNat
    · have slot : (⟨_, covers.slotOf_lt⟩ : Fin PRUNING_FACTOR) = 0 := by
        apply Fin.ext
        simp [same, Buffer.slotOf, MainState.buffer, initializeRelay]
      rw [slot, same, List.lookup_cons_self]
      simp only [MainState.buffer, initializeRelay, List.Vector.get_set_same, Option.getD_some]
    · have moved : (0 : Fin PRUNING_FACTOR) ≠ ⟨_, covers.slotOf_lt⟩ := by
        intro zero
        have back : Buffer.slotOf PRUNING_FACTOR blockHeight.toNat height =
          PRUNING_FACTOR - (blockHeight.toNat - height) := if_neg (by omega)
        have values : 0 = Buffer.slotOf PRUNING_FACTOR blockHeight.toNat height :=
          congrArg Fin.val zero
        rw [back] at values
        omega
      rw [List.lookup_cons, beq_false_of_ne same]
      simp only [MainState.buffer, initializeRelay] at moved ⊢
      rw [List.Vector.get_set_of_ne moved]
      exact congrArg some (List.Vector.get_replicate emptyArray _)

/-- The ring buffer shows the log of the run, which has an entry for every height shown from the
initial one on. -/
structure ShowsLog (initialHeight : UInt32) (log : List (ℕ × Bytes32)) (main : MainState) :
    Prop where
  shows : main.buffer.Shows log emptyArray main.blockHeight.toNat
  logged : ∀ height, initialHeight.toNat ≤ height → height ≤ main.blockHeight.toNat →
    main.blockHeight.toNat < height + 250 → ∃ commitment, log.lookup height = some commitment

/-- Moving the tip keeps the ring buffer showing the log if the new blocks fit the window. -/
theorem ShowsLog.advance {log : List (ℕ × Bytes32)} {next : MainState}
    {base tip : CommittedBlockHeader} {blocks : List CommittedBlockHeader}
    (shows : ShowsLog initialHeight log main) (advances : Advances rt main base blocks tip next)
    (fits : main.FitsWindow base.blockheight.toNat next.blockHeight.toNat) :
    ShowsLog initialHeight ((numbered base.blockheight.toNat
      (blocks.map (CommittedBlockHeader.getCommitHash rt))).reverse ++ log) next := by
  have lengths : (blocks.map (CommittedBlockHeader.getCommitHash rt)).length = blocks.length :=
    List.length_map _
  have height := advances.height
  have start : main.buffer.start = main.startHeight.toNat := rfl
  have near : base.blockheight.toNat < main.buffer.start + PRUNING_FACTOR := advances.near
  have start_le := shows.shows.start_le
  simp only [MainState.FitsWindow, height] at fits
  refine ⟨?_, ?_⟩
  · rw [advances.moves.buffer, height, ← lengths]
    apply shows.shows.writeAll near
    rw [lengths]
    exact fits
  · intro other atLeast upTo recent
    rw [height] at upTo recent
    rw [List.lookup_append]
    by_cases above : base.blockheight.toNat < other
    · rw [← lengths] at upTo recent
      have kept : main.buffer.start < other + PRUNING_FACTOR := by
        simp only [PRUNING_FACTOR]
        omega
      rcases Buffer.exists_read_writeAll near above upTo recent kept with ⟨commitment, found, _⟩
      refine ⟨commitment, ?_⟩
      rw [found]
      rfl
    · rcases shows.logged other atLeast (by omega) (by omega) with ⟨commitment, found⟩
      refine ⟨commitment, ?_⟩
      rw [lookup_reverse_numbered_of_le (by omega), found]
      rfl

/-- Along a run whose adopted forks fit the window, the ring buffer shows what was stored. -/
theorem showsLog_of_run (run : RelayRun rt steps ledger)
    (sound : SoundHashes rt (occurring steps)) (starts : StartsAt initialHeight steps)
    (fitting : ∀ step ∈ steps, AdoptsFitting step) :
    ∀ main, ledger.mainState = some main → ShowsLog initialHeight (storeLog rt steps) main := by
  induction run with
  | start fresh =>
      intro main present
      rw [fresh.mainState] at present
      cases present
  | @step steps before after request output run success ih =>
      have suffix := List.suffix_cons (⟨before, request, after, output⟩ : RelayStep) steps
      have previous := ih (sound.mono (occurring_mono suffix))
        (fun step member => starts step (List.mem_cons_of_mem _ member))
        (fun step member => fitting step (List.mem_cons_of_mem _ member))
      intro main' updated'
      rw [storeLog_cons]
      cases storeStep_of_run (.step run success) sound with
      | @created data blockHeight lastDiffAdjustment chainWork prevBlockTimestamps instruction
          absent updated accepted_eq stored =>
          cases updated.symm.trans updated'
          have invariant := chainInvariant_of_run run (sound.mono (occurring_mono suffix))
          have unlogged : storeLog rt steps = [] := by
            apply List.eq_nil_iff_forall_not_mem.mpr
            rintro ⟨height, commitment⟩ member
            rcases exists_of_mem_storeLog run (sound.mono (occurring_mono suffix)) member with
              ⟨committed, accepted, _⟩
            have none := (invariant.unstarted absent).1
            exact Set.eq_empty_iff_forall_notMem.mp none committed accepted
          rw [stored, unlogged]
          refine ⟨shows_initializeRelay data blockHeight lastDiffAdjustment chainWork
            prevBlockTimestamps, ?_⟩
          have at_height : blockHeight = initialHeight :=
            starts _ List.mem_cons_self _ (by rw [instruction]; rfl)
          intro height atLeast upTo _
          have same : height = blockHeight.toNat := by
            rw [← at_height] at atLeast
            exact le_antisymm upTo atLeast
          rw [same]
          exact ⟨_, List.lookup_cons_self⟩
      | unmoved stored main_eq =>
          rcases main_eq main' updated' with ⟨main, present, same⟩
          have shows := previous main present
          rw [stored, same]
          exact ⟨shows.shows, shows.logged⟩
      | moved present updated _ _ advances stored fits =>
          cases updated.symm.trans updated'
          rw [stored]
          exact (previous _ present).advance advances (fits (fitting _ List.mem_cons_self))

theorem high_of_run (run : RelayRun rt steps ledger) (sound : SoundHashes rt (occurring steps))
    (starts : StartsAt initialHeight steps) (high : 250 ≤ initialHeight.toNat)
    (present : ledger.mainState = some main) : 250 ≤ main.blockHeight.toNat := by
  rcases ((chainInvariant_of_run run sound).main main present).tip with ⟨tip, member, isTip⟩
  have above := le_blockheight_of_run run sound starts tip member
  rw [isTip.blockHeight]
  omega

/-- In a run whose adopted forks fit the window, the commitment kept for a height of the window is
the one most recently stored for it. -/
theorem exists_accepted_of_window (run : RelayRun rt steps ledger)
    (sound : SoundHashes rt (occurring steps)) (starts : StartsAt initialHeight steps)
    (high : 250 ≤ initialHeight.toNat) (fitting : ∀ step ∈ steps, AdoptsFitting step)
    (present : ledger.mainState = some main) {height : UInt32} (started : initialHeight ≤ height)
    (upTo : height ≤ main.blockHeight) (recent : main.blockHeight.toNat < height.toNat + 250) :
    ∃ committed ∈ accepted steps, committed.blockheight = height ∧
      (storeLog rt steps).lookup height.toNat = some (committed.getCommitHash rt) ∧
      main.getCommitment height = .ok (committed.getCommitHash rt) := by
  have shows := showsLog_of_run run sound starts fitting main present
  have inside := ((chainInvariant_of_run run sound).main main present).inside
  have atLeast := high_of_run run sound starts high present
  rcases shows.logged height.toNat started upTo recent with ⟨commitment, found⟩
  have read := shows.shows.shown height.toNat upTo recent
  rw [found, Option.getD_some] at read
  rcases List.lookup_eq_some_iff.mp found with ⟨newer, older, log_eq, _⟩
  have member : (height.toNat, commitment) ∈ storeLog rt steps := by
    rw [log_eq]
    simp
  rcases exists_of_mem_storeLog run sound member with ⟨committed, accepted, at_height, rfl⟩
  refine ⟨committed, accepted, UInt32.toNat_inj.mp at_height, found, ?_⟩
  exact getCommitment_of_read inside atLeast upTo recent read

/-- In every run whose adopted forks fit the window, the ring buffer is exactly the window of the
last 250 heights on what was stored. -/
theorem windowExact_of_run (run : RelayRun rt steps ledger)
    (sound : SoundHashes rt (occurring steps)) (starts : StartsAt initialHeight steps)
    (high : 250 ≤ initialHeight.toNat) (fitting : ∀ step ∈ steps, AdoptsFitting step)
    (present : ledger.mainState = some main) :
    WindowExact initialHeight (storeLog rt steps) main := by
  have shows := showsLog_of_run run sound starts fitting main present
  have inside := ((chainInvariant_of_run run sound).main main present).inside
  have lowest := le_blockheight_of_run run sound starts
  have atLeast := high_of_run run sound starts high present
  refine ⟨?_, ?_⟩
  · intro height started upTo recent
    rcases exists_accepted_of_window run sound starts high fitting present started upTo recent with
      ⟨committed, accepted, at_height, found, commitment⟩
    refine ⟨_, found, commitment, sound.nonzero committed (Or.inl accepted), ?_⟩
    intro other found other_mem different same
    rcases exists_of_mem_storeLog run sound other_mem with ⟨block, block_mem, rfl, rfl⟩
    have equal := sound.eq_of_getCommitHash (Or.inl block_mem) (Or.inl accepted) same
    rw [equal, at_height] at different
    exact different rfl
  · intro height outside
    rw [getCommitment_eq inside]
    split
    · rfl
    · rw [if_neg (by omega)]
      split
      · rfl
      · have below : height.toNat < initialHeight.toNat := by
          by_contra started
          apply outside
          refine ⟨?_, ?_, ?_⟩
          · rw [UInt32.le_iff_toNat_le]
            omega
          · rw [UInt32.le_iff_toNat_le]
            omega
          · omega
        have unlogged : (storeLog rt steps).lookup height.toNat = none := by
          apply List.lookup_eq_none_iff.mpr
          rintro ⟨other, commitment⟩ member
          rcases exists_of_mem_storeLog run sound member with ⟨committed, accepted, rfl, _⟩
          have above := lowest committed accepted
          simp only [bne_iff_ne]
          omega
        rw [shows.shows.shown height.toNat (by omega) (by simp only [PRUNING_FACTOR]; omega),
          unlogged]
        rfl

instance (base tip : ℕ) : Decidable (main.FitsWindow base tip) :=
  inferInstanceAs (Decidable (_ ∨ _))

def adoptsFittingChecked (step : RelayStep) : Bool :=
  match step.before.mainState, step.request.instruction with
  | some main, .submitShortForkHeaders data commitedHeader =>
      main.FitsWindow commitedHeader.blockheight.toNat
        (commitedHeader.blockheight.toNat + data.length)
  | some main, .submitForkHeaders data commitedHeader forkId _ =>
      !outweighs main commitedHeader data ||
        main.FitsWindow (forkSoFar step forkId commitedHeader).1
          (commitedHeader.blockheight.toNat + data.length)
  | _, _ => true

theorem adoptsFitting_of_checked (checked : adoptsFittingChecked step = true) :
    AdoptsFitting step := by
  intro main present
  refine ⟨?_, ?_⟩
  · intro data commitedHeader instruction
    simp only [adoptsFittingChecked, present, instruction, decide_eq_true_eq] at checked
    exact checked
  · intro data commitedHeader forkId init instruction outweighing
    simp only [adoptsFittingChecked, present, instruction, outweighing, Bool.not_true,
      Bool.false_or, decide_eq_true_eq] at checked
    exact checked

theorem startsAt_of_all (checked : (steps.all fun step =>
    step.request.instruction.initial?.all fun initial => initial.blockheight = initialHeight) =
      true) : StartsAt initialHeight steps := by
  intro step member initial started
  have at_height := List.all_eq_true.mp checked step member
  rw [started] at at_height
  exact of_decide_eq_true at_height

end

section

open Sample

theorem startsAt_reorganisation : StartsAt 1000 (replay mainnet reorganisation).1 := by
  apply startsAt_of_all
  decide +kernel

theorem windowExact_reorganisation :
    WindowExact 1000 (storeLog mainnet (replay mainnet reorganisation).1)
      (mainStateAfter mainnet reorganisation) := by
  have fits : (replay mainnet reorganisation).1.all adoptsFittingChecked = true := by
    decide +kernel
  apply windowExact_of_run (run_replay mainnet reorganisation)
  · exact soundHashes_reorganisation.mono occurring_reorganisation
  · exact startsAt_reorganisation
  · decide
  · intro step member
    exact adoptsFitting_of_checked (List.all_eq_true.mp fits step member)
  · exact mainState_reorganisation

/-- Two blocks of little work on top of the first one are replaced by one of more work. -/
def shortened : List Request :=
  [begin testnet,
    extend testnet ((easyBlocks 2 1 start).map CommittedBlockHeader.header) start,
    shortFork testnet [main1Header] start]

/-- A fork that lowers the block height leaves a commitment for a height before the initial one. -/
theorem not_windowExact_shortened :
    RelayRun testnet (replay testnet shortened).1 (replay testnet shortened).2 ∧
      SoundHashes testnet (occurring (replay testnet shortened).1) ∧
      StartsAt 1000 (replay testnet shortened).1 ∧
      (replay testnet shortened).2.mainState = some (mainStateAfter testnet shortened) ∧
      ¬WindowExact 1000 (storeLog testnet (replay testnet shortened).1)
        (mainStateAfter testnet shortened) := by
  have checked : hashesChecked testnet (start :: main1 :: easyBlocks 2 1 start)
        (replay testnet shortened).1 = true ∧
      ((replay testnet shortened).1.all fun step =>
        step.request.instruction.initial?.all fun initial => initial.blockheight = 1000) = true ∧
      (replay testnet shortened).2.mainState.isSome = true ∧
      (mainStateAfter testnet shortened).getCommitment 752 ≠ .ok emptyArray :=
    of_decide_eq_true (by decide +kernel)
  rcases checked with ⟨hashes, starts, started, stale⟩
  refine ⟨run_replay testnet shortened, ?_, startsAt_of_all starts, mainState_replay started, ?_⟩
  · exact (soundHashes_of_hashesChecked hashes).mono (occurring_subset_of_hashesChecked hashes)
  · intro exact
    exact stale (exact.outside 752 (by decide))

end

end BtcRelay
