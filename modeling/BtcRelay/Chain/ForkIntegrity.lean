import BtcRelay.Network.Replay

/-!
# Integrity of fork accounts

Whatever the order of the submissions, an open fork account holds the commitments of
consecutive committed headers, each accepted on top of the one before, from a block that
was committed in the main chain when the account was opened. The height of its last block
is counted in the header and as the start height plus the length; the two agree, so an
adoption writes up to exactly the new block height.
-/

namespace BtcRelay

open Exec History

/-- A committed header that the header verification has accepted on top of another one whose
block hash it names. -/
structure AcceptedOn (rt : Runtime) (parent child : CommittedBlockHeader) : Prop where
  link : child.header.reversedPrevBlockhash = parent.header.getBlockHash rt
  accepted : ∃ topic unixTimestamp,
    verifyHeader rt child.header parent topic unixTimestamp =
      .ok (child, child.header.getBlockHash rt)

/-- A fork account that holds some blocks on top of a base, opened by one of the steps. -/
structure ForkIntegrity (rt : Runtime) (steps : List RelayStep) (forkId : UInt64) (signer : Pubkey)
    (forkState : ForkState) (base : CommittedBlockHeader) (blocks : List CommittedBlockHeader) :
    Prop where
  length_pos : 1 ≤ forkState.length.toNat
  length_le : forkState.length.toNat ≤ 250
  length_eq : forkState.length.toNat = blocks.length
  commitments : ∀ i, (inRange : i < blocks.length) →
    index forkState.blockCommitments i = .ok (blocks[i].getCommitHash rt)
  heights : ∀ i, (inRange : i < blocks.length) →
    blocks[i].blockheight.toNat = forkState.startHeight.toNat + 1 + i
  chain : (base :: blocks).IsChain (AcceptedOn rt)
  base_height : base.blockheight = forkState.startHeight
  opened : ∃ step ∈ steps, step.request.opening? = some (forkId, signer, base) ∧
    ∃ main, step.before.mainState = some main ∧
      main.getCommitment base.blockheight = .ok (base.getCommitHash rt)
  tipCommitHash : index forkState.blockCommitments (forkState.length.toNat - 1) =
    .ok forkState.tipCommitHash
  tipBlockHash : ∃ tip, blocks.getLast? = some tip ∧
    forkState.tipBlockHash = tip.header.getBlockHash rt

/-- The fork account that a submission adds its headers to: the one it finds, or a new one on top of
the header it gives. -/
def forkBefore (step : RelayStep) (forkId : UInt64) (parent : CommittedBlockHeader) : ForkState :=
  (step.before.forkState forkId step.request.signer).getD
    { ForkState.zeroed with initialized := 1, startHeight := parent.blockheight }

/-- The account after a submission has stored the blocks of its headers in it. -/
structure FillsFork (rt : Runtime) (forkState filled : ForkState) (data : List BlockHeader)
    (blocks : List CommittedBlockHeader) : Prop where
  headers : blocks.map CommittedBlockHeader.header = data
  startHeight : filled.startHeight = forkState.startHeight
  stored : filled.stored =
    forkState.stored ++ blocks.map (CommittedBlockHeader.getCommitHash rt)
  length : filled.length.toNat = forkState.length.toNat + blocks.length

/-- The account that is copied into the main chain, and the main state after the copy. -/
structure CopiesUpTo (main next : MainState) (filled : ForkState) : Prop where
  copies : ∃ forkCounter copied, copyCommitments { main with forkCounter } filled = .ok copied ∧
    next.blockCommitments = copied.blockCommitments
  height : filled.startHeight.toNat + filled.length.toNat = next.blockHeight.toNat

section

variable {rt : Runtime} {steps : List RelayStep} {step : RelayStep} {ledger : Ledger}
  {forkId : UInt64} {signer : Pubkey} {base : CommittedBlockHeader}

theorem Extends.acceptedOn {parent child : CommittedBlockHeader}
    (extend : Extends rt parent child) :
    AcceptedOn rt parent child := by
  rcases extend.checks with ⟨topic, unixTimestamp, checks⟩
  refine ⟨extend.link.symm, topic, unixTimestamp, ?_⟩
  exact verifyHeader_eq_ok_iff.mpr ⟨checks, rfl, rfl⟩

theorem index_of_stored {forkState : ForkState} {i : ℕ} {commitment : Bytes32}
    (found : forkState.stored[i]? = some commitment) :
    index forkState.blockCommitments i = .ok commitment := by
  rw [ForkState.stored, List.getElem?_take] at found
  split at found
  · rcases List.getElem?_eq_some_iff.mp found with ⟨inRange, same⟩
    have capacity : i < PRUNING_FACTOR := by
      rw [List.Vector.toList_length] at inRange
      exact inRange
    rw [index_of_lt _ capacity, ← same, List.Vector.get_eq_get_toList]
    rfl
  · cases found

theorem getCommitment_of_opening (run : RelayRun rt steps ledger) (member : step ∈ steps)
    (opening : step.request.opening? = some (forkId, signer, base)) :
    ∃ main, step.before.mainState = some main ∧
      main.getCommitment base.blockheight = .ok (base.getCommitHash rt) := by
  rcases run.of_mem member with ⟨_, _, success, _⟩
  simp only [Request.opening?] at opening
  split at opening
  · rename_i data committed id instruction
    simp only [Option.some.injEq, Prod.mk.injEq] at opening
    rcases opening with ⟨_, _, rfl⟩
    simp only [process, instruction, bind_eq_ok_iff, load_eq_ok_iff, Except.ok.injEq,
      Prod.exists, Prod.mk.injEq] at success
    rcases success with ⟨main, present, next, account, emitted, submitted, _, _⟩
    rcases submitForkHeaders_spec submitted with ⟨_, _, _, _, _, opens, _⟩
    cases opens with
    | opened _ _ _ _ committed => exact ⟨main, present, committed⟩
    | continued continues => cases continues
  · cases opening

theorem exists_forkIntegrity_of_run (run : RelayRun rt steps ledger)
    (sound : SoundHashes rt (occurring steps)) {forkState : ForkState}
    (found : ledger.forkState forkId signer = some forkState) :
    ∃ base blocks, ForkIntegrity rt steps forkId signer forkState base blocks := by
  have invariant := chainInvariant_of_run run sound
  cases present : ledger.mainState with
  | none =>
      rw [(invariant.unstarted present).2 forkId signer] at found
      cases found
  | some main =>
      rcases invariant.forks main forkId signer forkState present found with
        ⟨base, blocks, fork, opening⟩
      rcases fork.tip with ⟨tip, last, commitHash, blockHash⟩
      rcases List.mem_filterMap.mp opening with ⟨step, member, opening⟩
      have nonempty : 0 < blocks.length := by
        apply List.length_pos_iff.mpr
        rintro rfl
        cases last
      have commitments (i : ℕ) (inRange : i < blocks.length) :
          index forkState.blockCommitments i = .ok (blocks[i].getCommitHash rt) := by
        apply index_of_stored
        rw [fork.stored, List.getElem?_map, List.getElem?_eq_getElem inRange, Option.map_some]
      refine ⟨base, blocks, ?_, ?_, fork.length, commitments, ?_, ?_, fork.startHeight.symm,
        ⟨step, member, opening, getCommitment_of_opening run member opening⟩, ?_,
        ⟨tip, last, blockHash⟩⟩
      · rw [fork.length]
        exact nonempty
      · rw [fork.length]
        exact fork.room
      · intro i inRange
        rw [height_getElem_of_isChain fork.chain inRange, fork.startHeight]
      · exact fork.chain.imp fun _ _ => Extends.acceptedOn
      · have inRange : blocks.length - 1 < blocks.length := by omega
        rw [List.getLast?_eq_getElem?, List.getElem?_eq_getElem inRange, Option.some.injEq] at last
        rw [fork.length, commitments _ inRange, last, commitHash]

/-- The copy of an adopted fork, with the account as the submission has filled it. -/
theorem submitForkHeaders_adopts {ctx : Context} {main next : MainState}
    {account : Option ForkState} {data : List BlockHeader} {parent : CommittedBlockHeader}
    {init : Bool} {events : List Event}
    (submitted : submitForkHeaders rt ctx main account data parent forkId init =
      .ok (next, none, events)) :
    ∃ opened forkState filled copied,
      ForkOpens rt main account parent forkId init opened forkState ∧
      FillsFork rt forkState filled data (events.filterMap Event.header?) ∧
      copyCommitments opened filled = .ok copied ∧
      next.blockCommitments = copied.blockCommitments ∧
      next.blockHeight.toNat = parent.blockheight.toNat + data.length := by
  simp only [submitForkHeaders, bind_eq_ok_iff, require_eq_ok_iff, Prod.exists] at submitted
  rcases submitted with ⟨_, required, loaded, loads, _, init_eq, opened, forkState, opens, last,
    run, rest⟩
  rcases submitHeaders_eq_ok_iff.mp run with ⟨children, ⟨filled, height⟩, accepted, storage, rfl⟩
  rcases batch_of_accepted required accepted with ⟨tip, batch⟩
  rcases ForkState.storeAll_spec storage with ⟨fields, stored, length, _, heights⟩
  rw [batch.length_eq] at heights
  split at rest
  · simp only [bind_eq_ok_iff, Except.ok.injEq, Prod.mk.injEq] at rest
    rcases rest with ⟨copied, copies, rfl, _, rfl⟩
    have reported : ∀ reorg : Event, reorg.header? = none →
        ((children.map (headerEvent rt (.storeFork forkId))) ++ [reorg]).filterMap Event.header? =
          children := by
      intro reorg silent
      rw [List.filterMap_append, filterMap_header?_storeFork, List.filterMap_cons_none silent,
        List.filterMap_nil, List.append_nil]
    refine ⟨opened, forkState, filled, copied, forkOpens_of_openFork loads init_eq opens, ?_,
      copies, rfl, heights⟩
    simp only [Progress.advance, List.nil_append]
    rw [reported _ rfl]
    refine ⟨batch.headers, ?_, stored, length⟩
    rw [fields]
  · simp only [Except.ok.injEq, Prod.mk.injEq] at rest
    cases rest.2.1

/-- The account that a submission opens or continues is the one that is there, if there is one. -/
theorem ForkOpens.eq_getD {main opened : MainState} {account : Option ForkState}
    {forkState : ForkState} {init : Bool}
    (opens : ForkOpens rt main account base forkId init opened forkState) :
    forkState =
      account.getD { ForkState.zeroed with initialized := 1, startHeight := base.blockheight } := by
  cases opens with
  | opened _ absent =>
      rw [absent]
      rfl
  | continued _ present =>
      rw [present]
      rfl

theorem copiesUpTo_of_run (run : RelayRun rt steps ledger)
    (sound : SoundHashes rt (occurring steps)) (member : step ∈ steps) {data : List BlockHeader}
    {parent : CommittedBlockHeader} {init : Bool}
    (instruction : step.request.instruction = .submitForkHeaders data parent forkId init)
    (closed : step.after.forkState forkId step.request.signer = none) :
    ∃ main next filled, step.before.mainState = some main ∧ step.after.mainState = some next ∧
      FillsFork rt (forkBefore step forkId parent) filled data
        (step.output.filterMap Event.header?) ∧
      CopiesUpTo main next filled := by
  rcases run.of_mem member with ⟨earlier, before, success, _, suffix⟩
  have included := occurring_mono suffix
  have invariant := chainInvariant_of_run before
    (sound.mono (occurring_mono ((List.suffix_cons step earlier).trans suffix)))
  have parent_mem : parent ∈ occurring steps :=
    included (mem_occurring_of_commitedHeader? (by rw [instruction]; rfl))
  simp only [process, instruction, bind_eq_ok_iff, load_eq_ok_iff, Except.ok.injEq,
    Prod.exists, Prod.mk.injEq] at success
  rcases success with ⟨main, present, next, account, emitted, submitted, updated, reported⟩
  have none : account = none := by
    rw [← updated] at closed
    simp only [Ledger.setFork, true_and, if_true] at closed
    exact closed
  subst none
  rcases submitForkHeaders_adopts submitted with
    ⟨opened, forkState, filled, copied, opens, fills, copies, ring, height⟩
  rcases exists_forkHolds_of_forkOpens (invariant.main main present)
    (fun forkState found => invariant.forks main forkId _ forkState present found) sound
    (fun _ old => occurring_mono ((List.suffix_cons step earlier).trans suffix) (Or.inl old))
    parent_mem opens with ⟨base, blocks, holds, parent_eq, opened_eq, _⟩
  rw [opens.eq_getD, reported] at fills
  refine ⟨main, next, filled, present, by rw [← updated], fills,
    ⟨opened.forkCounter, copied, ?_, ring⟩, ?_⟩
  · rw [← opened_eq]
    exact copies
  · -- the parent is the last block held, so both counts start from the base
    have heights := height_getLastD_of_isChain holds.chain
    have added : (step.output.filterMap Event.header?).length = data.length := by
      rw [← fills.headers, List.length_map]
    have start := holds.startHeight
    have length := holds.length
    rw [opens.eq_getD] at start length
    rw [← parent_eq] at heights
    rw [fills.startHeight, fills.length, height, heights, start, length, added]
    omega

/-- Every open fork account is intact. Every adoption copies the account with the submitted blocks
added to it, up to the new block height. -/
theorem forkIntegrity_of_run (run : RelayRun rt steps ledger)
    (sound : SoundHashes rt (occurring steps)) :
    (∀ forkId signer forkState, ledger.forkState forkId signer = some forkState →
      forkState.initialized ≠ 0 →
      ∃ base blocks, ForkIntegrity rt steps forkId signer forkState base blocks) ∧
    ∀ step ∈ steps, ∀ data parent forkId init,
      step.request.instruction = .submitForkHeaders data parent forkId init →
      step.after.forkState forkId step.request.signer = none →
      ∃ main next filled, step.before.mainState = some main ∧ step.after.mainState = some next ∧
        FillsFork rt (forkBefore step forkId parent) filled data
          (step.output.filterMap Event.header?) ∧
        CopiesUpTo main next filled := by
  refine ⟨?_, ?_⟩
  · intro forkId signer forkState found _
    exact exists_forkIntegrity_of_run run sound found
  · intro step member data parent forkId init instruction closed
    exact copiesUpTo_of_run run sound member instruction closed

end

section

open Sample

theorem forkIntegrity_reorganisation :
    (∀ forkId signer forkState,
      (replay mainnet reorganisation).2.forkState forkId signer = some forkState →
      forkState.initialized ≠ 0 →
      ∃ base blocks, ForkIntegrity mainnet (replay mainnet reorganisation).1 forkId signer forkState
        base blocks) ∧
    ∀ step ∈ (replay mainnet reorganisation).1, ∀ data parent forkId init,
      step.request.instruction = .submitForkHeaders data parent forkId init →
      step.after.forkState forkId step.request.signer = none →
      ∃ main next filled, step.before.mainState = some main ∧ step.after.mainState = some next ∧
        FillsFork mainnet (forkBefore step forkId parent) filled data
          (step.output.filterMap Event.header?) ∧
        CopiesUpTo main next filled := by
  apply forkIntegrity_of_run (run_replay mainnet reorganisation)
  exact soundHashes_reorganisation.mono occurring_reorganisation

end

end BtcRelay
