import BtcRelay.Bridge.Inclusion
import BtcRelay.Chain.Window
import BtcRelay.Relayer.Blocks

/-!
# Relaying transactions

For a deposit in a block that the relay knows, the relayer rebuilds the committed header of
the block. It takes the start of the difficulty period from the main state, which has that of
the tip. So the rebuilt header is the one that the relay keeps only if the block and the tip
are in periods that start at the same time: no deposit before a retarget can be relayed after
it.
-/

namespace BtcRelay

open Exec BigEndian CircularBuffer

/-- A node with the transactions of its blocks: their ids and raw bytes. -/
structure BitcoinNode where
  chain : ActiveChain
  transactions : BlockHeader → List (Bytes32 × List UInt8)

namespace BitcoinNode

variable (rt : Runtime) (node : BitcoinNode)

def tx (block : BlockHeader) : List Bytes32 := (node.transactions block).map Prod.fst

/-- The raw bytes of a transaction and the hash of its block. -/
def getRawTransactionInfo (txId : Bytes32) : Option (List UInt8 × Bytes32) :=
  node.chain.blocks.findSome? fun block =>
    ((node.transactions block).lookup txId).map fun hex => (hex, block.getBlockHash rt)

/-- The height of a block and the ids of its transactions. -/
def getBlockInfo (hash : Bytes32) : Option (ℕ × List Bytes32) :=
  (node.chain.getBlock rt hash).map fun block =>
    (node.chain.firstHeight +
      node.chain.blocks.findIdx fun other => other.getBlockHash rt = hash, node.tx block)

end BitcoinNode

/-- The transaction of `relay_tx`; `none` when it returns an error before sending it. -/
def relayTx (rt : Runtime) (node : BitcoinNode) (mainState : MainState) (signer : Pubkey)
    (unixTimestamp : ℤ) (txId : Bytes32) (mintReceiver : Pubkey) : Option Request := do
  let (hex, blockHash) ← node.getRawTransactionInfo rt txId
  let (height, txids) ← node.getBlockInfo rt blockHash
  let commitedHeader ← reconstructCommitedHeader rt node.chain blockHash (UInt32.ofNat height)
    mainState.lastDiffAdjustment
  let txPos ← txids.findIdx? fun inBlock => inBlock = txId
  match Proof.create rt txids txPos with
  | .error _ => none
  | .ok proof =>
      some (submission rt signer unixTimestamp []
        (.verifySmallTx hex 1 (UInt32.ofNat txPos) proof.toReversedVec commitedHeader mintReceiver))

namespace ActiveChain

/-- The blocks are linked by their hashes, which differ. -/
structure Linked (rt : Runtime) (chain : ActiveChain) : Prop where
  linked : chain.blocks.IsChain fun parent block =>
    parent.getBlockHash rt = block.reversedPrevBlockhash
  identified : chain.Identified rt

/-- The time of the first block of the difficulty period of a height, when the relay has been
initialized before it. -/
def periodStart (chain : ActiveChain) (initial : CommittedBlockHeader) (height : ℕ) : UInt32 :=
  if initial.blockheight.toNat < 2016 * (height / 2016) then
    ((chain.blockAt (2016 * (height / 2016))).map BlockHeader.timestamp).getD 0
  else initial.lastDiffAdjustment

def commitedBlock (chain : ActiveChain) (block : BlockHeader) (height lastDiffAdjustment : UInt32) :
    CommittedBlockHeader where
  chainWork := emptyArray
  header := block
  lastDiffAdjustment
  blockheight := height
  prevBlockTimestamps := chain.timesBefore height.toNat

end ActiveChain

/-- The relay is initialized with true data about a block of a chain, and extended only with blocks
of the chain, none of which add work. -/
structure FollowsChain (rt : Runtime) (chain : ActiveChain) (initial : CommittedBlockHeader)
    (steps : List RelayStep) : Prop where
  linked : chain.Linked rt
  begins : chain.blockAt initial.blockheight.toNat = some initial.header
  times : initial.prevBlockTimestamps = chain.timesBefore initial.blockheight.toNat
  work : initial.chainWork = emptyArray
  flat : ∀ block ∈ chain.above initial.blockheight.toNat, block.addedWork = 0
  starts : ∀ step ∈ steps, ∀ committed, step.request.instruction.initial? = some committed →
    committed = initial
  blocks : ∀ committed ∈ accepted steps, committed = initial ∨
    committed.header ∈ chain.above initial.blockheight.toNat

section

variable {rt : Runtime} {chain : ActiveChain} {initial child : CommittedBlockHeader}
  {path : List BlockHeader} {block parent : BlockHeader} {height other : ℕ}

namespace ActiveChain

theorem Linked.link (linked : chain.Linked rt) (found : chain.blockAt height = some parent)
    (next : chain.blockAt (height + 1) = some block) :
    parent.getBlockHash rt = block.reversedPrevBlockhash := by
  rcases blockAt_eq_some_iff.mp found with ⟨lower, found⟩
  rcases blockAt_eq_some_iff.mp next with ⟨_, next⟩
  rw [Nat.sub_add_comm lower] at next
  rcases List.getElem?_eq_some_iff.mp found with ⟨_, rfl⟩
  rcases List.getElem?_eq_some_iff.mp next with ⟨inRange, rfl⟩
  exact List.isChain_iff_getElem.mp linked.linked _ inRange

theorem Identified.height_eq (identified : chain.Identified rt)
    (found : chain.blockAt height = some parent) (second : chain.blockAt other = some block)
    (same : parent.getBlockHash rt = block.getBlockHash rt) : height = other := by
  rcases blockAt_eq_some_iff.mp found with ⟨lower, found⟩
  rcases blockAt_eq_some_iff.mp second with ⟨lowerOther, second⟩
  rcases List.getElem?_eq_some_iff.mp found with ⟨inRange, rfl⟩
  rcases List.getElem?_eq_some_iff.mp second with ⟨otherInRange, rfl⟩
  have inMap : height - chain.firstHeight <
      (chain.blocks.map (BlockHeader.getBlockHash rt)).length := by
    rw [List.length_map]
    exact inRange
  have otherInMap : other - chain.firstHeight <
      (chain.blocks.map (BlockHeader.getBlockHash rt)).length := by
    rw [List.length_map]
    exact otherInRange
  have equal : (chain.blocks.map (BlockHeader.getBlockHash rt))[height - chain.firstHeight] =
      (chain.blocks.map (BlockHeader.getBlockHash rt))[other - chain.firstHeight] := by
    rw [List.getElem_map, List.getElem_map]
    exact same
  have positions := (List.Nodup.getElem_inj_iff identified).mp equal
  omega

theorem exists_blockAt_of_mem_above (lower : chain.firstHeight ≤ height)
    (member : block ∈ chain.above height) :
    ∃ position, chain.blockAt (height + position + 1) = some block := by
  rcases List.getElem?_of_mem member with ⟨position, found⟩
  rw [above, List.getElem?_drop] at found
  have index : height + position + 1 - chain.firstHeight =
      height + 1 - chain.firstHeight + position := by omega
  refine ⟨position, blockAt_eq_some_iff.mpr ⟨by omega, ?_⟩⟩
  rw [index, found]

end ActiveChain

theorem lastDiffAdjustment_commitAll
    (begins : chain.blockAt initial.blockheight.toNat = some initial.header)
    (along : path <+: chain.above initial.blockheight.toNat)
    (inRange : initial.blockheight.toNat + path.length < 2 ^ 32) :
    (initial.commitAll path).lastDiffAdjustment =
      chain.periodStart initial (initial.blockheight.toNat + path.length) := by
  induction path using List.reverseRecOn with
  | nil =>
      have first : ¬initial.blockheight.toNat < 2016 * (initial.blockheight.toNat / 2016) := by
        omega
      simp only [ActiveChain.periodStart, List.length_nil, Nat.add_zero, if_neg first]
      rfl
  | append_singleton path block ih =>
      rw [List.length_append, List.length_singleton] at inRange ⊢
      have before := (List.prefix_append path [block]).trans along
      have adjusted := ih before (by omega)
      have height := (blockAt_commitAll begins before (by omega)).1
      have lower := (ActiveChain.lt_of_blockAt begins).1
      have found := ActiveChain.blockAt_of_above lower along
      have next := @CommittedBlockHeader.toNat_blockheight_commit (initial.commitAll path) block
        (by omega)
      have top : ((initial.commitAll path).blockheight + 1).toNat =
          initial.blockheight.toNat + path.length + 1 := by
        rw [← height]
        exact next
      have commits : (initial.commitAll (path ++ [block])).lastDiffAdjustment =
          if shouldDiffAdjust ((initial.commitAll path).blockheight + 1) then block.timestamp
          else (initial.commitAll path).lastDiffAdjustment := by
        rw [commitAll_append]
        rfl
      have position : initial.blockheight.toNat + (path.length + 1) =
          initial.blockheight.toNat + path.length + 1 := rfl
      rw [commits, adjusted, position]
      simp only [shouldDiffAdjust_iff, top]
      by_cases retarget : (initial.blockheight.toNat + path.length + 1) % 2016 = 0
      · have period : 2016 * ((initial.blockheight.toNat + path.length + 1) / 2016) =
            initial.blockheight.toNat + path.length + 1 := by omega
        have later : initial.blockheight.toNat < initial.blockheight.toNat + path.length + 1 := by
          omega
        rw [if_pos retarget, ActiveChain.periodStart, period, if_pos later, found]
        rfl
      · have period : (initial.blockheight.toNat + path.length + 1) / 2016 =
            (initial.blockheight.toNat + path.length) / 2016 := by omega
        rw [if_neg retarget, ActiveChain.periodStart, ActiveChain.periodStart, period]

theorem Extends.commitAll (extend : Extends rt (initial.commitAll path) child)
    (linked : chain.Linked rt)
    (begins : chain.blockAt initial.blockheight.toNat = some initial.header)
    (along : path <+: chain.above initial.blockheight.toNat)
    (inRange : initial.blockheight.toNat + path.length < 2 ^ 32)
    (member : child.header ∈ chain.above initial.blockheight.toNat) :
    path ++ [child.header] <+: chain.above initial.blockheight.toNat ∧
      child = initial.commitAll (path ++ [child.header]) := by
  have lower := (ActiveChain.lt_of_blockAt begins).1
  rcases blockAt_commitAll begins along inRange with ⟨_, found⟩
  rcases ActiveChain.exists_blockAt_of_mem_above lower member with ⟨position, next⟩
  rcases extend.checks with ⟨_, _, checks⟩
  -- the block below the child has the hash of its parent, so it is at the parent's height
  have bounds := ActiveChain.lt_of_blockAt next
  rcases chain.exists_blockAt (show chain.firstHeight ≤ initial.blockheight.toNat + position by
    omega) (by omega) with ⟨below, belowFound⟩
  have same := (linked.link belowFound next).trans extend.link.symm
  have positions := linked.identified.height_eq belowFound found same
  refine ⟨?_, ?_⟩
  · apply ActiveChain.append_prefix_above lower along
    rw [← positions]
    exact next
  · rw [commitAll_append]
    exact checks.eq_commit

end

section Run

variable {rt : Runtime} {chain : ActiveChain} {initial : CommittedBlockHeader}
  {steps earlier : List RelayStep} {step : RelayStep} {before after ledger : Ledger}
  {request : Request} {events : List Event} {main : MainState}

theorem FollowsChain.mono (follows : FollowsChain rt chain initial steps)
    (suffix : earlier <:+ steps) : FollowsChain rt chain initial earlier :=
  { follows with
    starts := fun step member => follows.starts step (suffix.subset member)
    blocks := fun committed member => follows.blocks committed (accepted_mono suffix member) }

theorem mem_kept_of_isChain {base : CommittedBlockHeader} {children : List CommittedBlockHeader}
    (linked : chain.Linked rt)
    (begins : chain.blockAt initial.blockheight.toNat = some initial.header)
    (known : ∀ child ∈ children, child = initial ∨
      child.header ∈ chain.above initial.blockheight.toNat)
    (base_mem : base ∈ chain.kept initial) (onTop : (base :: children).IsChain (Extends rt)) :
    ∀ child ∈ children, child ∈ chain.kept initial := by
  induction children generalizing base with
  | nil =>
      intro child member
      cases member
  | cons first rest ih =>
      rcases base_mem with ⟨path, along, inRange, rfl⟩
      rcases List.isChain_cons_cons.mp onTop with ⟨extend, tail⟩
      have counted := extend.height
      have height := (blockAt_commitAll begins along inRange).1
      have top := first.blockheight.toNat_lt
      have above : first.header ∈ chain.above initial.blockheight.toNat := by
        rcases known first List.mem_cons_self with rfl | above
        · omega
        · exact above
      rcases extend.commitAll linked begins along inRange above with ⟨alongNext, same⟩
      have next : first ∈ chain.kept initial := by
        refine ⟨_, alongNext, ?_, same⟩
        rw [List.length_append, List.length_singleton]
        omega
      intro child member
      rcases List.mem_cons.mp member with rfl | later
      · exact next
      · exact ih (fun child member => known child (List.mem_cons_of_mem _ member)) next tail child
          later

/-- Every accepted header is the one that the chain has at its height. -/
theorem mem_kept_of_run (run : RelayRun rt steps ledger)
    (sound : SoundHashes rt (occurring steps)) (follows : FollowsChain rt chain initial steps) :
    ∀ committed ∈ accepted steps, committed ∈ chain.kept initial := by
  induction run with
  | start fresh =>
      intro committed member
      cases member
  | @step steps before after request output run success ih =>
      have suffix := List.suffix_cons (⟨before, request, after, output⟩ : RelayStep) steps
      have older := ih (sound.mono (occurring_mono suffix)) (follows.mono suffix)
      have known := follows.blocks
      rw [accepted_cons] at known ⊢
      intro committed member
      rcases List.mem_append.mp member with new | old
      · rcases accepted_of_run (.step run success) sound with
          ⟨first, started, only⟩ | none | ⟨base, base_mem, linked⟩
        · rw [only, List.mem_singleton] at new
          have same := follows.starts _ List.mem_cons_self first started
          exact ⟨[], List.nil_prefix, initial.blockheight.toNat_lt, new.trans same⟩
        · rw [none] at new
          cases new
        · exact mem_kept_of_isChain follows.linked follows.begins
            (fun child member => known child (List.mem_append_left _ member)) (older base base_mem)
            linked committed new
      · exact older committed old

/-- An adopted fork ends with a header that has more work than the main chain. -/
theorem exists_heavier_of_process (success : process rt before request = .ok (after, events))
    (present : before.mainState = some main)
    (adopts : (∃ data base, request.instruction = .submitShortForkHeaders data base) ∨
      ∃ data base forkId init, request.instruction = .submitForkHeaders data base forkId init ∧
        outweighs main base data = true) :
    ∃ tip ∈ events.filterMap Event.header?, value main.chainWork < value tip.chainWork := by
  rcases adopts with
    ⟨data, base, instruction⟩ | ⟨data, base, forkId, init, instruction, outweighing⟩
  · simp only [process, instruction, present, load, ok_bind, bind_eq_ok_iff, Except.ok.injEq,
      Prod.exists, Prod.mk.injEq] at success
    rcases success with ⟨next, _, submitted, rfl, rfl⟩
    rcases submitShortForkHeaders_spec submitted with
      ⟨children, tip, batch, _, _, _, heavier, _, rfl⟩
    rw [filterMap_header?_storeFork]
    exact ⟨tip, List.mem_of_getLast? batch.last, heavier⟩
  · simp only [process, instruction, present, load, ok_bind, bind_eq_ok_iff, Except.ok.injEq,
      Prod.exists, Prod.mk.injEq] at success
    rcases success with ⟨next, account, emitted, submitted, rfl, rfl⟩
    rcases submitForkHeaders_spec submitted with ⟨opened, forkState, children, tip, filled,
      opens, batch, fields, stored, length, room, ends, order⟩
    refine ⟨tip, ?_, batch.outweighs_iff.mp outweighing⟩
    rcases order with rfl | ⟨reorg, rfl, rfl⟩
    · rw [filterMap_header?_storeFork]
      exact List.mem_of_getLast? batch.last
    · rw [List.filterMap_append, filterMap_header?_storeFork]
      exact List.mem_append_left _ (List.mem_of_getLast? batch.last)

/-- On a chain without work no fork is ever adopted. -/
theorem adoptsFitting_of_run (run : RelayRun rt steps ledger)
    (sound : SoundHashes rt (occurring steps)) (follows : FollowsChain rt chain initial steps) :
    ∀ step ∈ steps, AdoptsFitting step := by
  intro step member main present
  rcases run.of_mem member with ⟨earlier, _, success, _, suffix⟩
  have lighter : ¬∃ tip ∈ step.output.filterMap Event.header?,
      value main.chainWork < value tip.chainWork := by
    rintro ⟨tip, tip_mem, heavier⟩
    have occurs : tip ∈ accepted steps := List.mem_flatMap.mpr ⟨step, member, tip_mem⟩
    rcases mem_kept_of_run run sound follows tip occurs with ⟨path, along, inRange, rfl⟩
    have unworked := (chainWork_commitAll_eq_iff follows.work (by omega)).mpr
      fun block blockMem => follows.flat block (along.subset blockMem)
    have zero : value (emptyArray : Bytes32) = 0 := by decide
    rw [unworked, zero] at heavier
    cases heavier
  refine ⟨?_, ?_⟩
  · intro data base instruction
    exact absurd (exists_heavier_of_process success present (Or.inl ⟨data, base, instruction⟩))
      lighter
  · intro data base forkId init instruction outweighing
    exact absurd (exists_heavier_of_process success present
      (Or.inr ⟨data, base, forkId, init, instruction, outweighing⟩)) lighter

end Run

section Deposit

variable {rt : Runtime} {node : BitcoinNode} {initial : CommittedBlockHeader} {block : BlockHeader}
  {steps : List RelayStep} {ledger : Ledger} {main : MainState} {height : UInt32} {txId : Bytes32}
  {hex : List UInt8} {signer mintReceiver : Pubkey} {unixTimestamp : ℤ}

theorem BitcoinNode.getBlockInfo_of_blockAt {height : ℕ} (identified : node.chain.Identified rt)
    (found : node.chain.blockAt height = some block) :
    node.getBlockInfo rt (block.getBlockHash rt) = some (height, node.tx block) := by
  have member := ActiveChain.mem_of_blockAt found
  have inRange : node.chain.blocks.findIdx (fun other =>
      other.getBlockHash rt = block.getBlockHash rt) < node.chain.blocks.length :=
    List.findIdx_lt_length_of_exists ⟨block, member, by simp⟩
  have same := List.findIdx_getElem (w := inRange)
  rw [decide_eq_true_eq] at same
  have position : node.chain.firstHeight + node.chain.blocks.findIdx (fun other =>
      other.getBlockHash rt = block.getBlockHash rt) = height := by
    refine ActiveChain.Identified.height_eq identified ?_ found same
    apply ActiveChain.blockAt_eq_some_iff.mpr
    rw [Nat.add_sub_cancel_left]
    exact ⟨Nat.le_add_right _ _, List.getElem?_eq_getElem inRange⟩
  rw [BitcoinNode.getBlockInfo, ActiveChain.getBlock_of_mem identified member, Option.map_some,
    position]

theorem BitcoinNode.mem_tx_of_getRawTransactionInfo (identified : node.chain.Identified rt)
    (member : block ∈ node.chain.blocks)
    (located : node.getRawTransactionInfo rt txId = some (hex, block.getBlockHash rt)) :
    txId ∈ node.tx block := by
  rcases List.exists_of_findSome?_eq_some located with ⟨other, otherMem, found⟩
  rcases Option.map_eq_some_iff.mp found with ⟨raw, listed, same⟩
  rw [Prod.mk.injEq] at same
  rw [← List.inj_on_of_nodup_map identified otherMem member same.2]
  rcases List.lookup_eq_some_iff.mp listed with ⟨before, after, split, _⟩
  rw [BitcoinNode.tx, split]
  simp

/-- The transaction that is sent proves the position of the deposit in its block with the nodes
beside its way up. -/
theorem exists_relayTx_siblings {height : UInt32} (identified : node.chain.Identified rt)
    (found : node.chain.blockAt height.toNat = some block)
    (lower : node.chain.firstHeight + 10 ≤ height.toNat)
    (located : node.getRawTransactionInfo rt txId = some (hex, block.getBlockHash rt)) :
    ∃ txPos, (node.tx block)[txPos]? = some txId ∧
      relayTx rt node main signer unixTimestamp txId mintReceiver =
        some (submission rt signer unixTimestamp [] (.verifySmallTx hex 1 (UInt32.ofNat txPos)
          (MerkleTree.siblings (combineHashes rt) (node.tx block) txPos)
          (node.chain.commitedBlock block height main.lastDiffAdjustment) mintReceiver)) := by
  have member := ActiveChain.mem_of_blockAt found
  have bounds := ActiveChain.lt_of_blockAt found
  have listed := BitcoinNode.mem_tx_of_getRawTransactionInfo identified member located
  obtain ⟨txPos, position⟩ :
      ∃ txPos, (node.tx block).findIdx? (fun inBlock => inBlock = txId) = some txPos := by
    apply Option.isSome_iff_exists.mp
    rw [List.findIdx?_isSome, List.any_eq_true]
    exact ⟨txId, listed, by simp⟩
  rcases List.findIdx?_eq_some_iff_getElem.mp position with ⟨inRange, same, _⟩
  rw [decide_eq_true_eq] at same
  have proof : Proof.create rt (node.tx block) txPos =
      .ok ⟨MerkleTree.siblings (combineHashes rt) (node.tx block) txPos, txPos⟩ := by
    simp only [Proof.create, if_pos inRange, createLoop_eq (List.getElem?_eq_getElem inRange),
      ok_bind]
  refine ⟨txPos, ?_, ?_⟩
  · rw [List.getElem?_eq_getElem inRange, same]
  · simp only [relayTx, located, BitcoinNode.getBlockInfo_of_blockAt identified found,
      UInt32.ofNat_toNat, reconstructCommitedHeader_eq identified member lower (by omega), position,
      proof, Option.bind_eq_bind, Option.bind_some]
    rfl

theorem exists_relayTx {height : UInt32} (identified : node.chain.Identified rt)
    (found : node.chain.blockAt height.toNat = some block)
    (lower : node.chain.firstHeight + 10 ≤ height.toNat)
    (located : node.getRawTransactionInfo rt txId = some (hex, block.getBlockHash rt)) :
    ∃ txPos proof, relayTx rt node main signer unixTimestamp txId mintReceiver =
      some (submission rt signer unixTimestamp [] (.verifySmallTx hex 1 txPos proof
        (node.chain.commitedBlock block height main.lastDiffAdjustment) mintReceiver)) := by
  rcases exists_relayTx_siblings identified found lower located with ⟨_, _, sent⟩
  exact ⟨_, _, sent⟩

/-- After the confirmations of a block a transaction is never refused for the block's commitment. -/
theorem verifySmallTx_ne_prevBlockCommitment {deposit receiver : UInt64} {txBytes : List UInt8}
    {confirmations txIndex : UInt32} {proof : List Bytes32} {committed : CommittedBlockHeader}
    (commitment : main.getCommitment committed.blockheight = .ok (committed.getCommitHash rt)) :
    verifySmallTx rt main deposit receiver txBytes confirmations txIndex proof committed
      mintReceiver ≠ .error (.relay .prevBlockCommitment) := by
  have aborts : Failure.abort ≠ .relay .prevBlockCommitment := by simp
  have throws : Throws (· ≠ .relay .prevBlockCommitment) (verifySmallTx rt main deposit receiver
      txBytes confirmations txIndex proof committed mintReceiver) := by
    refine Throws.bind ?_ fun _ _ => ?_
    · refine (Throws.sub32 aborts _ _).bind fun depth _ => ?_
      refine (Throws.add32 aborts _ _).bind fun depth _ => ?_
      refine (Throws.require _ (by simp)).bind fun _ _ => ?_
      rw [commitment, ok_bind, require_of_true _ rfl]
      exact Throws.ok ()
    refine Throws.bind ?_ fun bitcoinTx _ => ?_
    · cases rt.consensusDecode txBytes with
      | none => exact Throws.abort aborts
      | some bitcoinTx => exact Throws.ok bitcoinTx
    refine Throws.bind ?_ fun amount _ => ?_
    · refine Throws.bind ?_ fun amount _ => ?_
      · apply Throws.foldlM
        intro total out
        exact Throws.add64 aborts _ _
      · exact (Throws.require _ (by simp)).bind fun _ _ => Throws.ok _
    refine (Throws.require _ (by simp)).bind fun _ _ => ?_
    refine Throws.bind ?_ fun solAmount _ => ?_
    · rw [mul64]
      split
      · exact Throws.ok _
      · exact Throws.abort aborts
    refine Throws.bind ?_ fun remaining _ => ?_
    · rw [sub64]
      split
      · exact Throws.ok _
      · exact Throws.abort aborts
    exact (Throws.add64 aborts _ _).bind fun _ _ => Throws.ok _
  intro refused
  exact throws _ refused rfl

theorem process_ne_prevBlockCommitment {txBytes : List UInt8} {confirmations txIndex : UInt32}
    {proof : List Bytes32} {committed : CommittedBlockHeader}
    (present : ledger.mainState = some main)
    (commitment : main.getCommitment committed.blockheight = .ok (committed.getCommitHash rt)) :
    process rt ledger (submission rt signer unixTimestamp [] (.verifySmallTx txBytes confirmations
      txIndex proof committed mintReceiver)) ≠ .error (.relay .prevBlockCommitment) := by
  simp only [process, submission, present, load, ok_bind]
  cases ledger.depositAccount with
  | none => simp
  | some deposit =>
      have accepts := @verifySmallTx_ne_prevBlockCommitment rt main mintReceiver deposit
        (ledger.lamports mintReceiver) txBytes confirmations txIndex proof committed commitment
      simp only [ok_bind, requireSystemAccount]
      generalize verifySmallTx rt main deposit (ledger.lamports mintReceiver) txBytes confirmations
        txIndex proof committed mintReceiver = result at accepts
      split
      · cases result with
        | error failure => simpa using accepts
        | ok balances => simp
      · simp

theorem FollowsChain.eq_commitedBlock {chain : ActiveChain} {committed : CommittedBlockHeader}
    (follows : FollowsChain rt chain initial steps) (high : 10 ≤ initial.blockheight.toNat)
    (kept : committed ∈ chain.kept initial) :
    chain.blockAt committed.blockheight.toNat = some committed.header ∧
      committed = chain.commitedBlock committed.header committed.blockheight
        (chain.periodStart initial committed.blockheight.toNat) := by
  rcases kept with ⟨path, along, inRange, rfl⟩
  rcases blockAt_commitAll follows.begins along inRange with ⟨height, found⟩
  have adjusted := lastDiffAdjustment_commitAll follows.begins along inRange
  have times := prevBlockTimestamps_commitAll follows.begins high follows.times along inRange
  have unworked := (chainWork_commitAll_eq_iff follows.work (by omega)).mpr
    fun block blockMem => follows.flat block (along.subset blockMem)
  rw [height, ActiveChain.commitedBlock, height, ← adjusted, ← times, ← unworked]
  exact ⟨found, rfl⟩

/-- For a block of the window the relayer rebuilds the committed header that the relay keeps, and
the deposit is not refused for it, exactly when the difficulty periods of the block and of the
tip start at the same time. -/
theorem relayTx_commitment_iff (run : RelayRun rt steps ledger)
    (follows : FollowsChain rt node.chain initial steps) (high : 250 ≤ initial.blockheight.toNat)
    (lower : node.chain.firstHeight + 10 ≤ initial.blockheight.toNat)
    (present : ledger.mainState = some main)
    (sound : SoundHashes rt (insert
      (node.chain.commitedBlock block height main.lastDiffAdjustment) (occurring steps)))
    (found : node.chain.blockAt height.toNat = some block)
    (located : node.getRawTransactionInfo rt txId = some (hex, block.getBlockHash rt))
    (started : initial.blockheight ≤ height) (upTo : height ≤ main.blockHeight)
    (recent : main.blockHeight.toNat < height.toNat + 250) :
    ∃ request, relayTx rt node main signer unixTimestamp txId mintReceiver = some request ∧
      request.instruction.commitedHeader? =
        some (node.chain.commitedBlock block height main.lastDiffAdjustment) ∧
      (main.getCommitment height =
            .ok ((node.chain.commitedBlock block height main.lastDiffAdjustment).getCommitHash rt) ∧
          process rt ledger request ≠ .error (.relay .prevBlockCommitment) ↔
        node.chain.periodStart initial height.toNat =
          node.chain.periodStart initial main.blockHeight.toNat) := by
  have known := sound.mono (Set.subset_insert _ _)
  have kept := mem_kept_of_run run known follows
  have startsAt : StartsAt initial.blockheight steps := by
    intro step member other begun
    rw [follows.starts step member other begun]
  rcases exists_accepted_of_window run known startsAt high (adoptsFitting_of_run run known follows)
    present started upTo recent with ⟨committed, accepted, at_height, _, commitment⟩
  -- the header that the relay keeps for the block
  rcases follows.eq_commitedBlock (by omega) (kept committed accepted) with ⟨header, is_block⟩
  rw [at_height, found, Option.some.injEq] at header
  rw [← header, at_height] at is_block
  -- the start of the period that the relayer takes from the tip
  rcases ((chainInvariant_of_run run known).main main present).tip with ⟨tip, tip_mem, isTip⟩
  have period : main.lastDiffAdjustment =
      node.chain.periodStart initial main.blockHeight.toNat := by
    rw [isTip.lastDiffAdjustment, isTip.blockHeight]
    exact congrArg CommittedBlockHeader.lastDiffAdjustment
      (follows.eq_commitedBlock (by omega) (kept tip tip_mem)).2
  rcases @exists_relayTx rt node block main txId hex signer mintReceiver unixTimestamp height
    follows.linked.identified found (by rw [UInt32.le_iff_toNat_le] at started; omega) located with
    ⟨txPos, proof, sent⟩
  refine ⟨_, sent, rfl, ?_⟩
  constructor
  · rintro ⟨same, _⟩
    rw [commitment, Except.ok.injEq] at same
    have equal := sound.eq_of_getCommitHash (Set.mem_insert_of_mem _ (Or.inl accepted))
      (Set.mem_insert _ _) same
    have adjustments := congrArg CommittedBlockHeader.lastDiffAdjustment equal
    rw [is_block] at adjustments
    rw [← period]
    exact adjustments
  · intro periods
    have same : main.getCommitment height = .ok
        ((node.chain.commitedBlock block height main.lastDiffAdjustment).getCommitHash rt) := by
      rw [commitment, is_block, period, periods]
    exact ⟨same, process_ne_prevBlockCommitment present same⟩

end Deposit

namespace Sample

/-- The node with the deposit in the last block before the new period; every other block has one
transaction. -/
def depositNode : BitcoinNode where
  chain := node 1
  transactions block :=
    if block = nodeStart then [(coinbaseTxid, []), (depositTxid, depositTx.serialize)]
    else [(block.merkleRoot, [])]

/-- The true data about that block; its period has begun 2015 blocks before. -/
def nodeInitial : CommittedBlockHeader where
  chainWork := emptyArray
  header := nodeStart
  lastDiffAdjustment := startTime - 600 * 2004
  blockheight := 2015
  prevBlockTimestamps := (node 1).timesBefore 2015

def nodeNext : BlockHeader :=
  nodeBlock 12 (0x3aae929addecb353e55c5f8c27906cb5d73f1361ee833131c28329f1973cbc63, 1)

def beginNode : Request :=
  request testnet [nodeStart] (.initializeRelay nodeStart 2015 nodeInitial.chainWork
    nodeInitial.lastDiffAdjustment nodeInitial.prevBlockTimestamps)

/-- The relay is extended across the retarget. -/
def retargeted : List Request := [beginNode, extend testnet [nodeNext] nodeInitial]

theorem followsChain_of_checked {steps : List RelayStep}
    (started : (steps.all fun step => step.request.instruction.initial?.all fun committed =>
      committed = nodeInitial) = true)
    (known : ((accepted steps).all fun committed =>
      committed = nodeInitial || committed.header = nodeNext) = true) :
    FollowsChain testnet (node 1) nodeInitial steps where
  linked := ⟨linked_node.1.take 13, identified_node 1⟩
  begins := rfl
  times := rfl
  work := rfl
  flat := by decide
  starts := by
    intro step member committed begun
    have same := List.all_eq_true.mp started step member
    rw [begun] at same
    exact of_decide_eq_true same
  blocks := by
    intro committed member
    have known := List.all_eq_true.mp known committed member
    rw [Bool.or_eq_true, decide_eq_true_eq, decide_eq_true_eq] at known
    rcases known with same | next
    · exact Or.inl same
    · rw [next]
      exact Or.inr List.mem_cons_self

theorem located_depositTxid : depositNode.getRawTransactionInfo testnet depositTxid =
    some (depositTx.serialize, nodeStart.getBlockHash testnet) :=
  of_decide_eq_true (by decide +kernel)

end Sample

section

open Sample

/-- Before the retarget the deposit can be relayed. -/
theorem relayTx_commitment_iff_begin : ∃ request,
    relayTx testnet depositNode (mainStateAfter testnet [beginNode]) emptyArray 1721030000
        depositTxid depositor = some request ∧
      request.instruction.commitedHeader? = some ((node 1).commitedBlock nodeStart 2015
        (mainStateAfter testnet [beginNode]).lastDiffAdjustment) ∧
      ((mainStateAfter testnet [beginNode]).getCommitment 2015 =
            .ok (((node 1).commitedBlock nodeStart 2015
              (mainStateAfter testnet [beginNode]).lastDiffAdjustment).getCommitHash testnet) ∧
          process testnet (replay testnet [beginNode]).2 request ≠
            .error (.relay .prevBlockCommitment) ↔
        (node 1).periodStart nodeInitial 2015 = (node 1).periodStart nodeInitial
          (mainStateAfter testnet [beginNode]).blockHeight.toNat) := by
  have hashes : hashesChecked testnet [nodeInitial] (replay testnet [beginNode]).1 = true := by
    decide +kernel
  have begun : (mainStateAfter testnet [beginNode]).lastDiffAdjustment =
      nodeInitial.lastDiffAdjustment ∧ (mainStateAfter testnet [beginNode]).blockHeight = 2015 :=
    of_decide_eq_true (by decide +kernel)
  have follows := @followsChain_of_checked (replay testnet [beginNode]).1 (by decide +kernel)
    (by decide +kernel)
  apply @relayTx_commitment_iff testnet depositNode nodeInitial nodeStart _ _ _ 2015 depositTxid
    depositTx.serialize emptyArray depositor 1721030000 (run_replay testnet [beginNode]) follows
    (by decide) (by decide)
  · apply mainState_replay
    decide +kernel
  · apply (soundHashes_of_hashesChecked hashes).mono
    rintro committed (rfl | occurs)
    · rw [begun.1]
      exact List.mem_cons_self
    · exact occurring_subset_of_hashesChecked hashes occurs
  · rfl
  · exact located_depositTxid
  · decide
  · rw [begun.2]
    exact UInt32.le_refl 2015
  · rw [begun.2]
    decide

/-- After the retarget the deposit of the block before it is refused. -/
theorem not_relayTx_commitment_retargeted : ∃ steps ledger main request commitedHeader,
    RelayRun testnet steps ledger ∧ FollowsChain testnet depositNode.chain nodeInitial steps ∧
      ledger.mainState = some main ∧ main.blockHeight = 2016 ∧
      depositNode.chain.blockAt 2015 = some nodeStart ∧ depositTxid ∈ depositNode.tx nodeStart ∧
      relayTx testnet depositNode main emptyArray 1721030000 depositTxid depositor =
        some request ∧ request.instruction.commitedHeader? = some commitedHeader ∧
      main.getCommitment 2015 ≠ .ok (commitedHeader.getCommitHash testnet) := by
  have follows := @followsChain_of_checked (replay testnet retargeted).1 (by decide +kernel)
    (by decide +kernel)
  have refused : (mainStateAfter testnet retargeted).blockHeight = 2016 ∧
      (mainStateAfter testnet retargeted).getCommitment 2015 ≠
        .ok (((node 1).commitedBlock nodeStart 2015
          (mainStateAfter testnet retargeted).lastDiffAdjustment).getCommitHash testnet) :=
    of_decide_eq_true (by decide +kernel)
  rcases @exists_relayTx testnet depositNode nodeStart (mainStateAfter testnet retargeted)
    depositTxid depositTx.serialize emptyArray depositor 1721030000 2015 (identified_node 1) rfl
    (by decide) located_depositTxid with ⟨txPos, proof, sent⟩
  refine ⟨_, _, _, _, _, run_replay testnet retargeted, follows, ?_, refused.1, rfl, ?_, sent, rfl,
    refused.2⟩
  · apply mainState_replay
    decide +kernel
  · decide

end

end BtcRelay
