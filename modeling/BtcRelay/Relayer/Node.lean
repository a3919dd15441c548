import BtcRelay.Chain.TipConsistency
import BtcRelay.Chain.Batching
import Mathlib.Tactic.FinCases

/-!
# The relayer and its node

What the relayer does with the blocks of a Bitcoin node: it initializes the relay with one
of them, rebuilds the committed header of a block from the node's data, and submits the
block after the tip. The node has one active chain, of which a part is given.
-/

namespace BtcRelay

open Exec

/-- The blocks of a node's active chain from a first height on. -/
structure ActiveChain where
  firstHeight : ℕ
  blocks : List BlockHeader

namespace ActiveChain

variable (rt : Runtime) (chain : ActiveChain)

def blockAt (height : ℕ) : Option BlockHeader :=
  if chain.firstHeight ≤ height then chain.blocks[height - chain.firstHeight]? else none

def getBlockHash (height : ℕ) : Option Bytes32 :=
  (chain.blockAt height).map (BlockHeader.getBlockHash rt)

/-- The block with a hash; only its header is used. -/
def getBlock (hash : Bytes32) : Option BlockHeader :=
  chain.blocks.find? fun block => block.getBlockHash rt = hash

def bestHeight : ℕ := chain.firstHeight + chain.blocks.length - 1

def above (height : ℕ) : List BlockHeader :=
  chain.blocks.drop (height + 1 - chain.firstHeight)

/-- The node has found more blocks. -/
structure Grows (chain more : ActiveChain) : Prop where
  firstHeight : more.firstHeight = chain.firstHeight
  blocks : chain.blocks <+: more.blocks

def Identified : Prop := (chain.blocks.map (BlockHeader.getBlockHash rt)).Nodup

/-- The timestamps of the ten blocks before a height, the oldest first. -/
def timesBefore (height : ℕ) : List.Vector UInt32 10 :=
  .ofFn fun position =>
    ((chain.blockAt (height - 10 + position)).map BlockHeader.timestamp).getD 0

end ActiveChain

section

variable (rt : Runtime) (chain : ActiveChain)

/-- The committed header of a block, rebuilt from the node's data; `none` when a call to the node
fails. -/
def reconstructCommitedHeader (hash : Bytes32) (height lastDiffAdjustment : UInt32) :
    Option CommittedBlockHeader := do
  let header ← chain.getBlock rt hash
  let prevBlockTimestamps ← (List.finRange 10).foldlM (fun prevBlockTimestamps (i : Fin 10) => do
    guard (i.val + 1 ≤ height.toNat)
    let prevBlockHash ← chain.getBlockHash rt (height.toNat - i - 1)
    let block ← chain.getBlock rt prevBlockHash
    some (prevBlockTimestamps.set i.rev block.timestamp)) (List.Vector.replicate 10 0)
  some { chainWork := emptyArray, header, lastDiffAdjustment, blockheight := height,
         prevBlockTimestamps }

/-- The committed header that the relay is initialized with. -/
def initialHeader (block : BlockHeader) (blockHeight : UInt32) : CommittedBlockHeader where
  chainWork := emptyArray
  header := block
  lastDiffAdjustment := block.timestamp
  blockheight := blockHeight
  prevBlockTimestamps := .replicate 10 block.timestamp

def initProgram (signer : Pubkey) (unixTimestamp : ℤ) (block : BlockHeader)
    (blockHeight : UInt32) : Request :=
  submission rt signer unixTimestamp [block]
    (.initializeRelay block blockHeight emptyArray block.timestamp
      (.replicate 10 block.timestamp))

def submitBlock (signer : Pubkey) (unixTimestamp : ℤ) (block : BlockHeader)
    (commitedHeader : CommittedBlockHeader) : Request :=
  submission rt signer unixTimestamp [block] (.submitBlockHeaders [block] commitedHeader)

/-- The block that one iteration of the relayer's loop submits, with the committed header rebuilt
for the tip. -/
def nextBlock (mainState : MainState) : Option (BlockHeader × CommittedBlockHeader) := do
  let commitedHeader ← reconstructCommitedHeader rt chain mainState.tipBlockHash
    mainState.blockHeight mainState.lastDiffAdjustment
  let lastSubmittedHeight := commitedHeader.blockheight.toNat
  if lastSubmittedHeight ≥ chain.bestHeight then none
  else do
    let blockHash ← chain.getBlockHash rt (lastSubmittedHeight + 1)
    let block ← chain.getBlock rt blockHash
    some (block, commitedHeader)

/-- One iteration of `relay_blocks_from_full_node`, after which the relayer tries again. -/
def relayBlock (signer : Pubkey) (unixTimestamp : ℤ) (ledger : Ledger) : Ledger :=
  match ledger.mainState.bind (nextBlock rt chain) with
  | none => ledger
  | some (block, commitedHeader) =>
      match process rt ledger (submitBlock rt signer unixTimestamp block commitedHeader) with
      | .ok (after, _) => after
      | .error _ => ledger

/-- The relayer's loop on top of an initialization, while the node's chain grows. -/
inductive RelayerRun (start : BlockHeader) (startHeight : UInt32) :
    ActiveChain → Ledger → Prop
  | init {chain : ActiveChain} {before after : Ledger} {events : List Event} {signer : Pubkey}
      {unixTimestamp : ℤ} (fresh : before.Fresh)
      (block : chain.blockAt startHeight.toNat = some start)
      (success : process rt before (initProgram rt signer unixTimestamp start startHeight) =
        .ok (after, events)) : RelayerRun start startHeight chain after
  | grow {chain more : ActiveChain} {ledger : Ledger}
      (run : RelayerRun start startHeight chain ledger) (grows : chain.Grows more) :
      RelayerRun start startHeight more ledger
  | poll {chain : ActiveChain} {ledger : Ledger} (run : RelayerRun start startHeight chain ledger)
      (signer : Pubkey) (unixTimestamp : ℤ) :
      RelayerRun start startHeight chain (relayBlock rt chain signer unixTimestamp ledger)

end

section

variable {rt : Runtime} {chain more : ActiveChain} {block : BlockHeader} {height : ℕ}

theorem ActiveChain.blockAt_eq_some_iff : chain.blockAt height = some block ↔
    chain.firstHeight ≤ height ∧ chain.blocks[height - chain.firstHeight]? = some block := by
  simp only [blockAt]
  split
  · simp_all
  · simp_all

theorem ActiveChain.exists_blockAt (lower : chain.firstHeight ≤ height)
    (upper : height < chain.firstHeight + chain.blocks.length) :
    ∃ block, chain.blockAt height = some block :=
  ⟨_, blockAt_eq_some_iff.mpr ⟨lower, List.getElem?_eq_getElem (by omega)⟩⟩

theorem ActiveChain.lt_of_blockAt (found : chain.blockAt height = some block) :
    chain.firstHeight ≤ height ∧ height < chain.firstHeight + chain.blocks.length := by
  rcases blockAt_eq_some_iff.mp found with ⟨lower, found⟩
  rcases List.getElem?_eq_some_iff.mp found with ⟨inRange, _⟩
  omega

theorem ActiveChain.mem_of_blockAt (found : chain.blockAt height = some block) :
    block ∈ chain.blocks :=
  List.mem_of_getElem? (blockAt_eq_some_iff.mp found).2

theorem ActiveChain.getBlock_of_mem (identified : chain.Identified rt)
    (member : block ∈ chain.blocks) :
    chain.getBlock rt (block.getBlockHash rt) = some block := by
  cases found : chain.getBlock rt (block.getBlockHash rt) with
  | none =>
      have absent := List.find?_eq_none.mp found block member
      simp at absent
  | some other =>
      have same : other.getBlockHash rt = block.getBlockHash rt := by
        simpa using List.find?_some found
      rw [List.inj_on_of_nodup_map identified (List.mem_of_find?_eq_some found) member same]

namespace ActiveChain.Grows

theorem blockAt (grows : chain.Grows more) (found : chain.blockAt height = some block) :
    more.blockAt height = some block := by
  rcases blockAt_eq_some_iff.mp found with ⟨lower, found⟩
  rcases grows.blocks with ⟨newer, extended⟩
  rcases List.getElem?_eq_some_iff.mp found with ⟨inRange, _⟩
  apply blockAt_eq_some_iff.mpr
  rw [grows.firstHeight, ← extended, List.getElem?_append_left inRange]
  exact ⟨lower, found⟩

theorem identified (grows : chain.Grows more) (identified : more.Identified rt) :
    chain.Identified rt :=
  identified.sublist (grows.blocks.sublist.map _)

theorem timesBefore (grows : chain.Grows more) (lower : chain.firstHeight + 10 ≤ height)
    (upper : height ≤ chain.firstHeight + chain.blocks.length) :
    more.timesBefore height = chain.timesBefore height := by
  apply congrArg List.Vector.ofFn
  funext position
  rcases chain.exists_blockAt (show chain.firstHeight ≤ height - 10 + position by omega)
    (by omega) with ⟨block, found⟩
  rw [found, grows.blockAt found]

theorem above (grows : chain.Grows more) : chain.above height <+: more.above height := by
  simp only [ActiveChain.above, grows.firstHeight]
  exact grows.blocks.drop _

end ActiveChain.Grows

/-- The rebuilt header, when the node has the block and the ten before it. -/
theorem reconstructCommitedHeader_eq {blockHeight lastDiffAdjustment : UInt32}
    (identified : chain.Identified rt) (member : block ∈ chain.blocks)
    (lower : chain.firstHeight + 10 ≤ blockHeight.toNat)
    (upper : blockHeight.toNat ≤ chain.firstHeight + chain.blocks.length) :
    reconstructCommitedHeader rt chain (block.getBlockHash rt) blockHeight lastDiffAdjustment =
      some ⟨emptyArray, block, lastDiffAdjustment, blockHeight,
        chain.timesBefore blockHeight.toNat⟩ := by
  have round (times : List.Vector UInt32 10) (i : Fin 10) : (do
      guard (i.val + 1 ≤ blockHeight.toNat)
      let prevBlockHash ← chain.getBlockHash rt (blockHeight.toNat - i - 1)
      let block ← chain.getBlock rt prevBlockHash
      some (times.set i.rev block.timestamp)) =
      some (times.set i.rev ((chain.timesBefore blockHeight.toNat).get i.rev)) := by
    rcases chain.exists_blockAt (show chain.firstHeight ≤ blockHeight.toNat - i - 1 by omega)
      (by omega) with ⟨earlier, found⟩
    have slot : blockHeight.toNat - 10 + i.rev.val = blockHeight.toNat - i - 1 := by
      rw [Fin.val_rev]
      omega
    have time : (chain.timesBefore blockHeight.toNat).get i.rev = earlier.timestamp := by
      rw [ActiveChain.timesBefore, List.Vector.get_ofFn, slot, found]
      rfl
    have inRange : i.val + 1 ≤ blockHeight.toNat := by omega
    have hash : chain.getBlockHash rt (blockHeight.toNat - i - 1) =
        some (earlier.getBlockHash rt) := by
      rw [ActiveChain.getBlockHash, found]
      rfl
    simp [guard, inRange, hash, time,
      ActiveChain.getBlock_of_mem identified (ActiveChain.mem_of_blockAt found)]
  have filled : (List.finRange 10).foldlM (fun times (i : Fin 10) =>
      some (times.set i.rev ((chain.timesBefore blockHeight.toNat).get i.rev)))
      (List.Vector.replicate 10 0) = some (chain.timesBefore blockHeight.toNat) := by
    generalize chain.timesBefore blockHeight.toNat = times
    apply congrArg some
    apply List.Vector.ext
    intro position
    fin_cases position <;> rfl
  simp only [Option.bind_eq_bind] at round filled
  simp only [reconstructCommitedHeader, ActiveChain.getBlock_of_mem identified member,
    Option.bind_eq_bind, Option.bind_some, round, filled]

end

end BtcRelay
