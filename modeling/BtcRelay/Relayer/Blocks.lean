import BtcRelay.Chain.AddedWork
import BtcRelay.Network.EasyBlocks
import BtcRelay.Relayer.Node

/-!
# Relaying blocks

The relayer rebuilds the committed header of the tip before each block that it submits. The
rebuilt header has no work, and the timestamps of the node's chain, while the relay has added
up the work since its first block and was told that the ten blocks before it have its own
timestamp. So the two agree only on chains whose blocks add no work, with a first block
whose timestamp is that of the ten blocks before it, and on other chains nothing is relayed.
-/

namespace BtcRelay

open Exec BigEndian CircularBuffer Bitcoin

section Chain

variable {rt : Runtime} {chain : ActiveChain} {initial : CommittedBlockHeader}
  {path : List BlockHeader} {block : BlockHeader} {height : ℕ}

theorem ActiveChain.blockAt_of_above (lower : chain.firstHeight ≤ height)
    (along : path ++ [block] <+: chain.above height) :
    chain.blockAt (height + path.length + 1) = some block := by
  rcases along with ⟨rest, split⟩
  have found : (chain.above height)[path.length]? = some block := by
    rw [← split]
    simp
  rw [above, List.getElem?_drop] at found
  have position : height + path.length + 1 - chain.firstHeight =
      height + 1 - chain.firstHeight + path.length := by omega
  apply blockAt_eq_some_iff.mpr
  rw [position]
  exact ⟨by omega, found⟩

theorem ActiveChain.append_prefix_above (lower : chain.firstHeight ≤ height)
    (along : path <+: chain.above height)
    (found : chain.blockAt (height + path.length + 1) = some block) :
    path ++ [block] <+: chain.above height := by
  rcases along with ⟨rest, split⟩
  have position : height + path.length + 1 - chain.firstHeight =
      height + 1 - chain.firstHeight + path.length := by omega
  have next := (blockAt_eq_some_iff.mp found).2
  rw [position, ← List.getElem?_drop, ← above, ← split, List.getElem?_append_right (le_refl _),
    Nat.sub_self] at next
  cases rest with
  | nil => cases next
  | cons first rest =>
      simp only [List.getElem?_cons_zero, Option.some.injEq] at next
      subst next
      exact ⟨rest, (List.append_cons path first rest).symm.trans split⟩

theorem get_shiftTimestamps (arr : List.Vector UInt32 10) (timestamp : UInt32) (i : Fin 10) :
    (shiftTimestamps arr timestamp).get i =
      if inside : i.val + 1 < 10 then arr.get ⟨i + 1, inside⟩ else timestamp := by
  rcases arr with ⟨times, length⟩
  match times, length with
  | [_, _, _, _, _, _, _, _, _, _], _ => fin_cases i <;> rfl

theorem ActiveChain.shiftTimestamps_timesBefore (high : 10 ≤ height)
    (found : chain.blockAt height = some block) :
    shiftTimestamps (chain.timesBefore height) block.timestamp =
      chain.timesBefore (height + 1) := by
  apply List.Vector.ext
  intro i
  rw [get_shiftTimestamps]
  simp only [timesBefore, List.Vector.get_ofFn]
  split
  · have slot : height - 10 + (i.val + 1) = height + 1 - 10 + i.val := by omega
    rw [slot]
  · have slot : height + 1 - 10 + i.val = height := by omega
    rw [slot, found]
    rfl

/-- The committed headers along the chain have its blocks, at their heights. -/
theorem blockAt_commitAll (begins : chain.blockAt initial.blockheight.toNat = some initial.header)
    (along : path <+: chain.above initial.blockheight.toNat)
    (inRange : initial.blockheight.toNat + path.length < 2 ^ 32) :
    (initial.commitAll path).blockheight.toNat = initial.blockheight.toNat + path.length ∧
      chain.blockAt (initial.blockheight.toNat + path.length) =
        some (initial.commitAll path).header := by
  induction path using List.reverseRecOn with
  | nil => exact ⟨rfl, begins⟩
  | append_singleton path block ih =>
      rw [List.length_append, List.length_singleton] at inRange ⊢
      rcases ih ((List.prefix_append _ _).trans along) (by omega) with ⟨height, _⟩
      have lower := (ActiveChain.lt_of_blockAt begins).1
      rw [commitAll_append]
      refine ⟨?_, ActiveChain.blockAt_of_above lower along⟩
      have next := @CommittedBlockHeader.toNat_blockheight_commit (initial.commitAll path) block
        (by omega)
      rw [height] at next
      exact next

theorem prevBlockTimestamps_commitAll
    (begins : chain.blockAt initial.blockheight.toNat = some initial.header)
    (high : 10 ≤ initial.blockheight.toNat)
    (times : initial.prevBlockTimestamps = chain.timesBefore initial.blockheight.toNat)
    (along : path <+: chain.above initial.blockheight.toNat)
    (inRange : initial.blockheight.toNat + path.length < 2 ^ 32) :
    (initial.commitAll path).prevBlockTimestamps =
      chain.timesBefore (initial.blockheight.toNat + path.length) := by
  induction path using List.reverseRecOn with
  | nil => exact times
  | append_singleton path block ih =>
      rw [List.length_append, List.length_singleton] at inRange ⊢
      have before := (List.prefix_append path [block]).trans along
      rcases blockAt_commitAll begins before (by omega) with ⟨_, found⟩
      have shifted := ActiveChain.shiftTimestamps_timesBefore (by omega) found
      rw [← ih before (by omega)] at shifted
      rw [commitAll_append]
      exact shifted

theorem addedWork_lt (header : BlockHeader) : header.addedWork < 2 ^ 224 := by
  have quotient : header.addedWork ≤ maxDifficulty := Nat.div_le_self _ _
  have bound : maxDifficulty < 2 ^ 224 := by decide
  omega

theorem chainWork_commitAll (none : initial.chainWork = emptyArray) (short : path.length < 2 ^ 32) :
    value (initial.commitAll path).chainWork = (path.map BlockHeader.addedWork).sum ∧
      (path.map BlockHeader.addedWork).sum ≤ path.length * 2 ^ 224 := by
  induction path using List.reverseRecOn with
  | nil =>
      refine ⟨?_, le_refl _⟩
      rw [CommittedBlockHeader.commitAll, List.foldl_nil, none]
      rfl
  | append_singleton path block ih =>
      rw [List.length_append, List.length_singleton] at short ⊢
      rcases ih (by omega) with ⟨work, bound⟩
      have added := addedWork_lt block
      have sum : ((path ++ [block]).map BlockHeader.addedWork).sum =
          (path.map BlockHeader.addedWork).sum + block.addedWork := by
        simp
      have words : (256 ^ 32 : ℕ) = 2 ^ 256 := by norm_num
      rw [commitAll_append, sum]
      refine ⟨?_, by omega⟩
      simp only [CommittedBlockHeader.commitAll, List.foldl_cons, List.foldl_nil,
        CommittedBlockHeader.commit] at work ⊢
      rw [value_ofNat, work, words]
      apply Nat.mod_eq_of_lt
      omega

/-- A committed header has no work exactly when no block has added any. -/
theorem chainWork_commitAll_eq_iff (none : initial.chainWork = emptyArray)
    (short : path.length < 2 ^ 32) :
    (initial.commitAll path).chainWork = emptyArray ↔ ∀ block ∈ path, block.addedWork = 0 := by
  have zero : value emptyArray = 0 := by decide
  rw [← value_inj, zero, (chainWork_commitAll none short).1, List.sum_eq_zero_iff_forall_eq_nat]
  simp

end Chain

/-- The committed header rebuilt from the node's data for one of the chain. -/
def ActiveChain.rebuilt (chain : ActiveChain) (committed : CommittedBlockHeader) :
    CommittedBlockHeader :=
  { committed with
    chainWork := emptyArray
    prevBlockTimestamps := chain.timesBefore committed.blockheight.toNat }

/-- The committed headers along a chain, as the relay keeps them. -/
def ActiveChain.kept (chain : ActiveChain) (initial : CommittedBlockHeader) :
    Set CommittedBlockHeader :=
  { committed | ∃ path, path <+: chain.above initial.blockheight.toNat ∧
      initial.blockheight.toNat + path.length < 2 ^ 32 ∧ committed = initial.commitAll path }

/-- The committed headers along a chain, as the relay keeps them and as they are rebuilt. -/
def ActiveChain.relayed (chain : ActiveChain) (initial : CommittedBlockHeader) :
    Set CommittedBlockHeader :=
  chain.kept initial ∪ chain.rebuilt '' chain.kept initial

/-- The rebuilt header of the tip has the tip's commitment, and the check of the next submission
passes. -/
def RelayerAgrees (rt : Runtime) (chain : ActiveChain) (main : MainState) : Prop :=
  ∃ commitedHeader,
    reconstructCommitedHeader rt chain main.tipBlockHash main.blockHeight main.lastDiffAdjustment =
      some commitedHeader ∧
    commitedHeader.getCommitHash rt = main.tipCommitHash ∧
    main.getCommitment main.blockHeight = .ok (commitedHeader.getCommitHash rt)

/-- The relay has followed a chain along some blocks on top of its first one. -/
structure Following (rt : Runtime) (chain : ActiveChain) (initial : CommittedBlockHeader)
    (main : MainState) (path : List BlockHeader) : Prop where
  begins : chain.blockAt initial.blockheight.toNat = some initial.header
  along : path <+: chain.above initial.blockheight.toNat
  extendable : Extendable rt main (initial.commitAll path)
  blockHeight : main.blockHeight.toNat = initial.blockheight.toNat + path.length
  /-- Nothing is relayed on top of a first block with other timestamps. -/
  times : path ≠ [] → initial.prevBlockTimestamps = chain.timesBefore initial.blockheight.toNat

section Relaying

variable {rt : Runtime} {chain more : ActiveChain} {initial : CommittedBlockHeader}
  {main next : MainState} {path data : List BlockHeader} {block : BlockHeader}
  {signer : Pubkey} {unixTimestamp : ℤ} {events : List Event}

theorem Extendable.submitBlockHeaders {base : CommittedBlockHeader} {instruction : Instruction}
    (extendable : Extendable rt main base) (nonempty : data ≠ [])
    (submitted : submitBlockHeaders rt
      (submission rt signer unixTimestamp data instruction).toContext main data base =
        .ok (next, events)) :
    Extendable rt next (base.commitAll data) ∧
      next.blockHeight.toNat = main.blockHeight.toNat + data.length := by
  rcases (submitBlockHeaders_submission_iff nonempty).mp submitted with
    ⟨_, children, ring, height, accepted, stored, rfl, _⟩
  rcases storeAll_storeMain_spec stored with ⟨_, buffer, counted⟩
  have lengths := accepted.length_indexed
  have last := height_getLastD_of_isChain accepted.isChain
  have heights := congrArg UInt32.toNat extendable.isTip.blockHeight
  have inside := extendable.inside
  have kept := extendable.kept
  have high := extendable.high
  have written : (children.map (CommittedBlockHeader.getCommitHash rt)).length = children.length :=
    List.length_map _
  rw [accepted.getLastD_eq] at last
  have start : (ring.moveTo rt (base.commitAll data) height).startHeight.toNat =
      (main.buffer.writeAll main.blockHeight.toNat
        (children.map (CommittedBlockHeader.getCommitHash rt))).start :=
    congrArg Buffer.start buffer
  have below : (main.buffer.writeAll main.blockHeight.toNat
      (children.map (CommittedBlockHeader.getCommitHash rt))).start ≤
      max main.startHeight.toNat (main.blockHeight.toNat +
        (children.map (CommittedBlockHeader.getCommitHash rt)).length) := Buffer.start_writeAll_le
  have above : main.blockHeight.toNat +
      (children.map (CommittedBlockHeader.getCommitHash rt)).length <
      (main.buffer.writeAll main.blockHeight.toNat
        (children.map (CommittedBlockHeader.getCommitHash rt))).start + 250 :=
    Buffer.lt_start_writeAll inside
  have top : (ring.moveTo rt (base.commitAll data) height).blockHeight.toNat =
      main.blockHeight.toNat + children.length := counted
  refine ⟨⟨⟨rfl, rfl, rfl, rfl, ?_⟩, ?_, ?_, ?_, ?_⟩, ?_⟩
  · rw [← UInt32.toNat_inj, last, top]
    omega
  · exact getCommitment_moveTo stored (accepted.getLast?_eq nonempty) inside (by omega) high
  · rw [start, top]
    omega
  · rw [start, top]
    omega
  · rw [top]
    omega
  · rw [top]
    omega

theorem extendable_initializeRelay (header : BlockHeader)
    {blockHeight lastDiffAdjustment : UInt32} (chainWork : Bytes32)
    (prevBlockTimestamps : List.Vector UInt32 10) (high : 250 ≤ blockHeight.toNat) :
    Extendable rt (initializeRelay rt header blockHeight chainWork lastDiffAdjustment
        prevBlockTimestamps).1
      ⟨chainWork, header, lastDiffAdjustment, blockHeight, prevBlockTimestamps⟩ := by
  have invariant := @mainInvariant_initializeRelay rt header blockHeight lastDiffAdjustment
    chainWork prevBlockTimestamps
  have kept : (initializeRelay rt header blockHeight chainWork lastDiffAdjustment
      prevBlockTimestamps).1.startHeight.toNat < blockHeight.toNat + 250 := by
    simp only [initializeRelay]
    omega
  refine ⟨⟨rfl, rfl, rfl, rfl, rfl⟩, ?_, invariant.inside, kept, high⟩
  exact getCommitment_of_read invariant.inside high (le_refl _) (Nat.lt_add_of_pos_right (by omega))
    (invariant.stored kept)

theorem ActiveChain.rebuilt_eq_self_iff {committed : CommittedBlockHeader} :
    chain.rebuilt committed = committed ↔ committed.chainWork = emptyArray ∧
      committed.prevBlockTimestamps = chain.timesBefore committed.blockheight.toNat := by
  rcases committed with ⟨chainWork, header, lastDiffAdjustment, blockheight, prevBlockTimestamps⟩
  simp [rebuilt, eq_comm]

namespace Following

variable (following : Following rt chain initial main path)
include following

theorem inRange : initial.blockheight.toNat + path.length < 2 ^ 32 := by
  rw [← following.blockHeight]
  exact main.blockHeight.toNat_lt

theorem path_eq : path = (chain.above initial.blockheight.toNat).take path.length :=
  List.prefix_iff_eq_take.mp following.along

theorem mem_kept : initial.commitAll path ∈ chain.kept initial :=
  ⟨path, following.along, following.inRange, rfl⟩

theorem mem_relayed : initial.commitAll path ∈ chain.relayed initial ∧
    chain.rebuilt (initial.commitAll path) ∈ chain.relayed initial :=
  ⟨Or.inl following.mem_kept, Or.inr ⟨_, following.mem_kept, rfl⟩⟩

theorem reconstructCommitedHeader_eq (identified : chain.Identified rt)
    (lower : chain.firstHeight + 10 ≤ initial.blockheight.toNat) :
    reconstructCommitedHeader rt chain main.tipBlockHash main.blockHeight
        main.lastDiffAdjustment = some (chain.rebuilt (initial.commitAll path)) := by
  have isTip := following.extendable.isTip
  rcases blockAt_commitAll following.begins following.along following.inRange with ⟨height, found⟩
  have bounds := ActiveChain.lt_of_blockAt found
  rw [isTip.tipBlockHash, isTip.lastDiffAdjustment, isTip.blockHeight,
    BtcRelay.reconstructCommitedHeader_eq identified (ActiveChain.mem_of_blockAt found) (by omega)
      (by omega)]
  rfl

/-- The relayer agrees with the relay when the rebuilt header is that of the tip. -/
theorem agrees_iff (identified : chain.Identified rt)
    (lower : chain.firstHeight + 10 ≤ initial.blockheight.toNat)
    (sound : SoundHashes rt (chain.relayed initial)) :
    RelayerAgrees rt chain main ↔
      chain.rebuilt (initial.commitAll path) = initial.commitAll path := by
  have isTip := following.extendable.isTip
  simp only [RelayerAgrees, following.reconstructCommitedHeader_eq identified lower,
    Option.some.injEq, exists_eq_left', isTip.tipCommitHash, following.extendable.committed,
    Except.ok.injEq]
  constructor
  · rintro ⟨same, _⟩
    exact sound.eq_of_getCommitHash following.mem_relayed.2 following.mem_relayed.1 same
  · intro same
    rw [same]
    exact ⟨rfl, rfl⟩

/-- The rebuilt header is that of the tip when no block has added work and the relay has been
initialized with the timestamps of the chain. -/
theorem rebuilt_eq_iff (none : initial.chainWork = emptyArray)
    (high : 10 ≤ initial.blockheight.toNat) :
    chain.rebuilt (initial.commitAll path) = initial.commitAll path ↔
      initial.prevBlockTimestamps = chain.timesBefore initial.blockheight.toNat ∧
        ∀ block ∈ path, block.addedWork = 0 := by
  have height := (blockAt_commitAll following.begins following.along following.inRange).1
  have inRange := following.inRange
  have work := @chainWork_commitAll_eq_iff initial path none (by omega)
  rw [ActiveChain.rebuilt_eq_self_iff, work, height]
  constructor
  · rintro ⟨unworked, times⟩
    refine ⟨?_, unworked⟩
    rcases path.eq_nil_or_concat with rfl | ⟨front, last, rfl⟩
    · exact times
    · exact following.times (by simp)
  · rintro ⟨times, unworked⟩
    exact ⟨unworked,
      prevBlockTimestamps_commitAll following.begins high times following.along following.inRange⟩

end Following

theorem Following.grow (following : Following rt chain initial main path)
    (grows : chain.Grows more) (lower : chain.firstHeight + 10 ≤ initial.blockheight.toNat) :
    Following rt more initial main path where
  begins := grows.blockAt following.begins
  along := following.along.trans grows.above
  extendable := following.extendable
  blockHeight := following.blockHeight
  times nonempty := by
    have bounds := ActiveChain.lt_of_blockAt following.begins
    rw [grows.timesBefore lower (by omega)]
    exact following.times nonempty

theorem ActiveChain.Grows.relayed (grows : chain.Grows more)
    (begins : chain.blockAt initial.blockheight.toNat = some initial.header)
    (lower : chain.firstHeight + 10 ≤ initial.blockheight.toNat) :
    chain.relayed initial ⊆ more.relayed initial := by
  rintro committed (⟨path, along, inRange, rfl⟩ | ⟨_, ⟨path, along, inRange, rfl⟩, rfl⟩)
  · exact Or.inl ⟨path, along.trans grows.above, inRange, rfl⟩
  · rcases blockAt_commitAll begins along inRange with ⟨height, found⟩
    have bounds := ActiveChain.lt_of_blockAt found
    have times := @ActiveChain.Grows.timesBefore _ _ (initial.commitAll path).blockheight.toNat
      grows (by omega) (by omega)
    refine Or.inr ⟨_, ⟨path, along.trans grows.above, inRange, rfl⟩, ?_⟩
    rw [ActiveChain.rebuilt, times]
    rfl

/-- The next block is submitted on top of the tip. -/
theorem Following.submit (following : Following rt chain initial main path)
    (sound : SoundHashes rt (chain.relayed initial)) (identified : chain.Identified rt)
    (lower : chain.firstHeight + 10 ≤ initial.blockheight.toNat)
    (none : initial.chainWork = emptyArray) {commitedHeader : CommittedBlockHeader}
    (polled : nextBlock rt chain main = some (block, commitedHeader)) {instruction : Instruction}
    (submitted : submitBlockHeaders rt
      (submission rt signer unixTimestamp [block] instruction).toContext main [block]
      commitedHeader = .ok (next, events)) :
    Following rt chain initial next (path ++ [block]) := by
  have nonempty : [block] ≠ [] := List.cons_ne_nil _ _
  have height := (blockAt_commitAll following.begins following.along following.inRange).1
  simp only [nextBlock, following.reconstructCommitedHeader_eq identified lower,
    Option.bind_eq_bind, Option.bind_some] at polled
  split at polled
  · cases polled
  simp only [Option.bind_eq_some_iff, ActiveChain.getBlockHash, Option.map_eq_some_iff,
    Option.some.injEq, Prod.mk.injEq] at polled
  rcases polled with ⟨_, ⟨found, above, rfl⟩, _, stored, rfl, rfl⟩
  rw [ActiveChain.getBlock_of_mem identified (ActiveChain.mem_of_blockAt above),
    Option.some.injEq] at stored
  subst stored
  -- the submission was accepted, so the rebuilt header is that of the tip
  have committed := ((submitBlockHeaders_submission_iff nonempty).mp submitted).1
  rw [following.extendable.committed, Except.ok.injEq] at committed
  have same := sound.eq_of_getCommitHash following.mem_relayed.2 following.mem_relayed.1
    committed.symm
  rw [same] at submitted
  rw [same, height] at above
  rcases following.extendable.submitBlockHeaders nonempty submitted with ⟨extendable, counted⟩
  rw [← commitAll_append] at extendable
  exact {
    begins := following.begins
    along := ActiveChain.append_prefix_above (by omega) following.along above
    extendable
    blockHeight := by
      rw [counted, following.blockHeight, List.length_append]
      exact Nat.add_assoc _ _ _
    times := fun _ => ((following.rebuilt_eq_iff none (by omega)).mp same).1 }

end Relaying

section Run

variable {rt : Runtime} {chain : ActiveChain} {start : BlockHeader} {startHeight : UInt32}
  {main : MainState} {ledger : Ledger}

theorem blockAt_of_run (run : RelayerRun rt start startHeight chain ledger) :
    chain.blockAt startHeight.toNat = some start := by
  induction run with
  | init fresh block success => exact block
  | grow run grows ih => exact grows.blockAt ih
  | poll run signer unixTimestamp ih => exact ih

theorem process_initProgram {signer : Pubkey} {unixTimestamp : ℤ}
    (absent : ledger.mainState = none) :
    process rt ledger (initProgram rt signer unixTimestamp start startHeight) =
      .ok ({ ledger with
          mainState := some (initializeRelay rt start startHeight emptyArray start.timestamp
            (.replicate 10 start.timestamp)).1 },
        (initializeRelay rt start startHeight emptyArray start.timestamp
          (.replicate 10 start.timestamp)).2) := by
  simp [process, initProgram, submission, absent, requireAbsent, requireHeaderTopic]

/-- The relayer only ever submits blocks of the node's chain on top of the first one. -/
theorem following_of_run (run : RelayerRun rt start startHeight chain ledger)
    (identified : chain.Identified rt) (lower : chain.firstHeight + 10 ≤ startHeight.toNat)
    (high : 250 ≤ startHeight.toNat)
    (sound : SoundHashes rt (chain.relayed (initialHeader start startHeight))) :
    ∃ main path, ledger.mainState = some main ∧
      Following rt chain (initialHeader start startHeight) main path := by
  induction run with
  | init fresh block success =>
      rw [process_initProgram fresh.mainState, Except.ok.injEq, Prod.mk.injEq] at success
      rcases success with ⟨rfl, rfl⟩
      refine ⟨_, [], rfl, ?_⟩
      exact {
        begins := block
        along := List.nil_prefix
        extendable := extendable_initializeRelay start emptyArray _ high
        blockHeight := rfl
        times := fun nonempty => absurd rfl nonempty }
  | grow run grows ih =>
      rw [grows.firstHeight] at lower
      have known := sound.mono (grows.relayed (blockAt_of_run run) lower)
      rcases ih (grows.identified identified) lower known with ⟨main, path, present, following⟩
      exact ⟨main, path, present, following.grow grows lower⟩
  | poll run signer unixTimestamp ih =>
      rcases ih identified lower sound with ⟨main, path, present, following⟩
      simp only [relayBlock, present, Option.bind_some]
      split
      · exact ⟨main, path, present, following⟩
      · rename_i block commitedHeader polled
        split
        · rename_i after events success
          rcases (process_submitBlockHeaders_iff present).mp success with ⟨next, submitted, rfl⟩
          exact ⟨next, path ++ [block], rfl,
            following.submit sound identified lower rfl polled submitted⟩
        · exact ⟨main, path, present, following⟩

/-- The relayer agrees while the blocks that the relay follows have added no work, when the ten
blocks before the first one have its timestamp. -/
theorem Following.agrees_iff_unworked {path : List BlockHeader}
    (following : Following rt chain (initialHeader start startHeight) main path)
    (identified : chain.Identified rt) (lower : chain.firstHeight + 10 ≤ startHeight.toNat)
    (sound : SoundHashes rt (chain.relayed (initialHeader start startHeight))) :
    RelayerAgrees rt chain main ↔
      chain.timesBefore startHeight.toNat = .replicate 10 start.timestamp ∧
        ∀ block ∈ path, block.addedWork = 0 := by
  have deep : 10 ≤ (initialHeader start startHeight).blockheight.toNat := by
    simp only [initialHeader]
    omega
  rw [following.agrees_iff identified lower sound, following.rebuilt_eq_iff rfl deep]
  simp only [initialHeader]
  rw [eq_comm]

/-- The relayer agrees with the relay exactly while the blocks above the first one have added no
work, when the ten blocks before the first one have its timestamp. -/
theorem relayerAgrees_iff (run : RelayerRun rt start startHeight chain ledger)
    (identified : chain.Identified rt) (lower : chain.firstHeight + 10 ≤ startHeight.toNat)
    (high : 250 ≤ startHeight.toNat)
    (sound : SoundHashes rt (chain.relayed (initialHeader start startHeight)))
    (present : ledger.mainState = some main) :
    RelayerAgrees rt chain main ↔
      chain.timesBefore startHeight.toNat = .replicate 10 start.timestamp ∧
        ∀ block ∈ (chain.above startHeight.toNat).take
          (main.blockHeight.toNat - startHeight.toNat), block.addedWork = 0 := by
  rcases following_of_run run identified lower high sound with ⟨other, path, same, following⟩
  rw [present, Option.some.injEq] at same
  subst same
  have length : main.blockHeight.toNat - startHeight.toNat = path.length := by
    have height := following.blockHeight
    simp only [initialHeader] at height
    omega
  have followed := following.path_eq
  simp only [initialHeader] at followed
  rw [following.agrees_iff_unworked identified lower sound, length, ← followed]

/-- On a chain that follows the rule of the median time the relayer never agrees. -/
theorem not_relayerAgrees_of_median (run : RelayerRun rt start startHeight chain ledger)
    (identified : chain.Identified rt) (lower : chain.firstHeight + 10 ≤ startHeight.toNat)
    (high : 250 ≤ startHeight.toNat)
    (sound : SoundHashes rt (chain.relayed (initialHeader start startHeight)))
    (present : ledger.mainState = some main) {older : UInt32}
    (rule : OrderStatistics.median 0 (older.toNat ::
      ((chain.timesBefore startHeight.toNat).toList.map UInt32.toNat).reverse) <
        start.timestamp.toNat) : ¬RelayerAgrees rt chain main := by
  rcases following_of_run run identified lower high sound with ⟨other, path, same, following⟩
  rw [present, Option.some.injEq] at same
  subst same
  rw [following.agrees_iff_unworked identified lower sound]
  rintro ⟨times, _⟩
  rw [times, ← isLargerThanMedian_iff] at rule
  have few : isLargerThanMedian (.replicate 10 start.timestamp) older start.timestamp = false := by
    have times : (List.Vector.replicate 10 start.timestamp).toList =
      List.replicate 10 start.timestamp := rfl
    simp only [isLargerThanMedian, times, List.replicate]
    split <;> simp_all
  rw [few] at rule
  cases rule

end Run

namespace Sample

/-- The hash before each block of a chain with easy targets, and the block's nonce. -/
def nodeLinks : List (ℕ × UInt32) :=
  [(0x6decbe778da43b24f4395aaeebc97c89094101e46c7a0c4d5fc9051ed3282e67, 1),
    (0x9621435412d1c4f7cc5fd63854fca4acb067e3251a7140e9d9ba90fbff15e802, 3),
    (0x6180f8b2c850d10db1512533f04b0a0cb6fee610fc95557a2766d1508db5e479, 2),
    (0x52d135e9a55a6a5122b256d720d478c11d49ee1a075018beaeb9e755fa1b7f0c, 0),
    (0x6a417dd46e48ae875d1a87a82659c22ffb0ff96a5e025cccace198cf59671558, 1),
    (0xa02f1cea1055f6397d0d67e1a78173dadd5f5674b3441ca98635c689ac79ac49, 1),
    (0xf30c81aa2b465b30a581a15e81ffde1b345f2ca50fe854b6cc5b6cce0dfe5a19, 1),
    (0xc85c39725a80858a09375be67deb1d152d8ea917ae35aa52635536a16856cc16, 2),
    (0x08d4c7224bcb7a3a2589b75990169a95e9c432c08a4517facc97c1c3dfbecd45, 1),
    (0x882fef76d8ed2d8a9913635164f369e0616a78050e603b115ee6eb92f8b6f96d, 5),
    (0x130c940b21aca5e843578aed3b9f3bf15fe0b3fcb6950f9356c3212f5090140b, 1),
    (0x79861e77ea6d33e06eeb6fa6a00743b5d319015ad9e836bd313add3acc6f8474, 1),
    (0x3aae929addecb353e55c5f8c27906cb5d73f1361ee833131c28329f1973cbc63, 1),
    (0xdebbad212060e8db0b1b4a035947b168acb1e02ada98e18f6f24017ff375e851, 0)]

/-- A block of the chain; the last one before a new difficulty period contains the deposit. -/
def nodeBlock (position : ℕ) (link : ℕ × UInt32) : BlockHeader where
  version := 0x20000000
  reversedPrevBlockhash := ofNat 32 link.1
  merkleRoot :=
    if position = 11 then main1Header.merkleRoot
    else ofNat 32
      (0x343dfd9da41f797fa67aebff13a002126157153fb0e1d601075ed502470b21a4 + position)
  timestamp := startTime + 600 * UInt32.ofNat position
  nbits := 0x207fffff
  nonce := link.2

/-- The chain up to a block before a new difficulty period, or after some more blocks. -/
def node (more : ℕ) : ActiveChain where
  firstHeight := 2004
  blocks := (nodeLinks.mapIdx nodeBlock).take (12 + more)

def nodeStart : BlockHeader :=
  nodeBlock 11 (0x79861e77ea6d33e06eeb6fa6a00743b5d319015ad9e836bd313add3acc6f8474, 1)

/-- The main state that the relayer initializes with it. -/
def nodeState : MainState :=
  (initializeRelay testnet nodeStart 2015 emptyArray nodeStart.timestamp
    (.replicate 10 nodeStart.timestamp)).1

theorem linked_node : ((node 2).blocks.IsChain fun parent block =>
    parent.getBlockHash testnet = block.reversedPrevBlockhash) ∧
    ((node 2).blocks.map (BlockHeader.getBlockHash testnet)).Nodup :=
  of_decide_eq_true (by decide +kernel)

theorem identified_node (more : ℕ) : (node more).Identified testnet := by
  have prefix_all : (node more).blocks <+: nodeLinks.mapIdx nodeBlock := List.take_prefix _ _
  have all : nodeLinks.mapIdx nodeBlock = (node 2).blocks := rfl
  rw [all] at prefix_all
  exact linked_node.2.sublist (prefix_all.sublist.map _)

theorem run_node : RelayerRun testnet nodeStart 2015 (node 0)
    { fundedLedger with mainState := some nodeState } :=
  @RelayerRun.init testnet nodeStart 2015 (node 0) fundedLedger _ _ emptyArray 1721030000
    fresh_fundedLedger rfl (process_initProgram rfl)

theorem soundHashes_node :
    SoundHashes testnet ((node 0).relayed (initialHeader nodeStart 2015)) := by
  have nodup : (emptyArray :: [initialHeader nodeStart 2015,
      (node 0).rebuilt (initialHeader nodeStart 2015)].map
        (CommittedBlockHeader.getCommitHash testnet)).Nodup :=
    of_decide_eq_true (by decide +kernel)
  apply (soundHashes_of_nodup nodup).mono
  rintro committed (⟨path, along, _, rfl⟩ | ⟨_, ⟨path, along, _, rfl⟩, rfl⟩)
  · rw [List.prefix_nil.mp along]
    exact List.mem_cons_self
  · rw [List.prefix_nil.mp along]
    exact List.mem_cons_of_mem _ List.mem_cons_self

end Sample

section

open Sample

theorem relayerAgrees_iff_node :
    RelayerAgrees testnet (node 0) nodeState ↔
      (node 0).timesBefore 2015 = .replicate 10 nodeStart.timestamp ∧
        ∀ block ∈ ((node 0).above 2015).take (nodeState.blockHeight.toNat - 2015),
          block.addedWork = 0 :=
  relayerAgrees_iff run_node (identified_node 0) (by decide) (by decide) soundHashes_node rfl

/-- Right after its initialization, on a chain of a node, the relay cannot be extended by the
relayer. -/
theorem not_relayerAgrees_node : ∃ chain start ledger main,
    RelayerRun testnet start 2015 chain ledger ∧
      (chain.blocks.IsChain fun parent block =>
        parent.getBlockHash testnet = block.reversedPrevBlockhash) ∧
      chain.Identified testnet ∧ ledger.mainState = some main ∧
      ¬RelayerAgrees testnet chain main := by
  refine ⟨node 0, nodeStart, _, nodeState, run_node, ?_, identified_node 0, rfl, ?_⟩
  · exact linked_node.1.take 12
  · have following : Following testnet (node 0) (initialHeader nodeStart 2015) nodeState [] := {
      begins := rfl
      along := List.nil_prefix
      extendable := extendable_initializeRelay nodeStart emptyArray _ (by decide)
      blockHeight := rfl
      times := fun nonempty => absurd rfl nonempty }
    rw [following.agrees_iff (identified_node 0) (by decide) soundHashes_node,
      ActiveChain.rebuilt_eq_self_iff]
    decide

end

end BtcRelay
