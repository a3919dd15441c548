import BtcRelay.Relayer.Transactions

/-!
# When the relayer stalls

The relayer submits one block at a time on top of the tip, and tries again for ever when a
submission fails. There are two ways in which it never gets any further. When a chain
follows the rule of the median time, the timestamps that the relay has been initialized with
are not those of the chain, so the first block is already refused. When the node has
reorganised the tip of the relay away, the next block of its active chain is no child of the
tip; the relayer submits no forks, although the program would take them.
-/

namespace BtcRelay

open Exec

section Median

variable {rt : Runtime} {chain more : ActiveChain} {start : BlockHeader} {startHeight : UInt32}
  {ledger : Ledger} {main : MainState} {older : UInt32} {signer : Pubkey} {unixTimestamp : ℤ}

/-- The timestamp of a block is past the median time of the eleven blocks before it, which are
those of the chain and an older one. -/
def ActiveChain.PastMedian (chain : ActiveChain) (height : ℕ) (older : UInt32)
    (block : BlockHeader) : Prop :=
  OrderStatistics.median 0 (older.toNat ::
    ((chain.timesBefore height).toList.map UInt32.toNat).reverse) < block.timestamp.toNat

instance (chain : ActiveChain) (height : ℕ) (older : UInt32) (block : BlockHeader) :
    Decidable (chain.PastMedian height older block) :=
  inferInstanceAs (Decidable (_ < _))

/-- Ten equal timestamps leave no room for a block with the same one. -/
theorem ActiveChain.PastMedian.times_ne {height : ℕ} {block : BlockHeader}
    (past : chain.PastMedian height older block) :
    chain.timesBefore height ≠ .replicate 10 block.timestamp := by
  intro same
  simp only [PastMedian, same, ← isLargerThanMedian_iff] at past
  have times : (List.Vector.replicate 10 block.timestamp).toList =
    List.replicate 10 block.timestamp := rfl
  simp only [isLargerThanMedian, times, List.replicate] at past
  split at past <;> simp_all

theorem ActiveChain.PastMedian.of_grows {height : ℕ} {block : BlockHeader}
    (past : more.PastMedian height older block) (grows : chain.Grows more)
    (lower : chain.firstHeight + 10 ≤ height)
    (upper : height ≤ chain.firstHeight + chain.blocks.length) :
    chain.PastMedian height older block := by
  simp only [PastMedian, grows.timesBefore lower upper] at past
  exact past

/-- The main state that the relayer initializes a relay with. -/
def initialState (rt : Runtime) (start : BlockHeader) (startHeight : UInt32) : MainState :=
  (initializeRelay rt start startHeight emptyArray start.timestamp
    (.replicate 10 start.timestamp)).1

/-- A poll of the relayer is refused while the relay has only its first block. -/
theorem relayBlock_of_initialState
    (run : RelayerRun rt start startHeight chain ledger)
    (identified : chain.Identified rt) (lower : chain.firstHeight + 10 ≤ startHeight.toNat)
    (high : 250 ≤ startHeight.toNat)
    (sound : SoundHashes rt (chain.relayed (initialHeader start startHeight)))
    (past : chain.PastMedian startHeight.toNat older start)
    (present : ledger.mainState = some (initialState rt start startHeight)) :
    relayBlock rt chain signer unixTimestamp ledger = ledger := by
  rcases following_of_run run identified lower high sound with ⟨main, path, same, following⟩
  cases present.symm.trans same
  simp only [relayBlock, present, Option.bind_some]
  split
  · rfl
  · rename_i block commitedHeader polled
    split
    · rename_i after events success
      rcases (process_submitBlockHeaders_iff present).mp success with ⟨next, submitted, _⟩
      -- a submission that is accepted shows that the timestamps are those of the chain
      have moved := following.submit sound identified lower rfl polled submitted
      have times := moved.times (by simp)
      exact absurd times.symm past.times_ne
    · rfl

/-- On a chain that follows the rule of the median time the relayer never extends the relay that
it has initialized, however often it polls and however far the chain grows. -/
theorem mainState_of_relayerRun (run : RelayerRun rt start startHeight chain ledger)
    (identified : chain.Identified rt) (lower : chain.firstHeight + 10 ≤ startHeight.toNat)
    (high : 250 ≤ startHeight.toNat)
    (sound : SoundHashes rt (chain.relayed (initialHeader start startHeight)))
    (past : chain.PastMedian startHeight.toNat older start) :
    ledger.mainState = some (initialState rt start startHeight) := by
  induction run with
  | init fresh block success =>
      rw [process_initProgram fresh.mainState, Except.ok.injEq, Prod.mk.injEq] at success
      rcases success with ⟨rfl, _⟩
      rfl
  | @grow chain more ledger run grows ih =>
      have begins := blockAt_of_run run
      have bounds := ActiveChain.lt_of_blockAt begins
      rw [grows.firstHeight] at lower
      apply ih (grows.identified identified) lower
      · exact sound.mono (grows.relayed begins lower)
      · exact past.of_grows grows lower (by omega)
  | poll run signer unixTimestamp ih =>
      have present := ih identified lower sound past
      rw [relayBlock_of_initialState run identified lower high sound past present]
      exact present

end Median

section

open Sample

theorem grows_node : (node 0).Grows (node 1) :=
  ⟨rfl, List.take_prefix_take_left (by decide)⟩

theorem soundHashes_grown :
    SoundHashes testnet ((node 1).relayed (initialHeader nodeStart 2015)) := by
  have nodup : (emptyArray :: [initialHeader nodeStart 2015,
      (node 1).rebuilt (initialHeader nodeStart 2015),
      (initialHeader nodeStart 2015).commitAll [nodeNext],
      (node 1).rebuilt ((initialHeader nodeStart 2015).commitAll [nodeNext])].map
        (CommittedBlockHeader.getCommitHash testnet)).Nodup :=
    of_decide_eq_true (by decide +kernel)
  have above : (node 1).above 2015 = [nodeNext] := rfl
  have paths {path : List BlockHeader} (along : path <+: (node 1).above 2015) :
      path = [] ∨ path = [nodeNext] := by
    rw [above] at along
    rcases List.prefix_cons_iff.mp along with rfl | ⟨rest, rfl, short⟩
    · exact Or.inl rfl
    · rw [List.prefix_nil.mp short]
      exact Or.inr rfl
  apply (soundHashes_of_nodup nodup).mono
  rintro committed (⟨path, along, _, rfl⟩ | ⟨_, ⟨path, along, _, rfl⟩, rfl⟩)
  · rcases paths along with rfl | rfl
    · exact List.mem_cons_self
    · exact List.mem_cons_of_mem _ (List.mem_cons_of_mem _ List.mem_cons_self)
  · rcases paths along with rfl | rfl
    · exact List.mem_cons_of_mem _ List.mem_cons_self
    · exact List.mem_cons_of_mem _ (List.mem_cons_of_mem _
        (List.mem_cons_of_mem _ List.mem_cons_self))

/-- The node finds the next block, and the relayer polls. -/
theorem mainState_of_relayerRun_node : ∃ ledger,
    RelayerRun testnet nodeStart 2015 (node 1) ledger ∧
      ledger.mainState = some (initialState testnet nodeStart 2015) := by
  have run := (run_node.grow grows_node).poll emptyArray 1721030000
  refine ⟨_, run, ?_⟩
  apply @mainState_of_relayerRun _ _ _ _ _ startTime run (identified_node 1) (by decide)
    (by decide) soundHashes_grown
  decide

end

/-- A node that may have reorganised: its active chain, and the blocks that it keeps besides. -/
structure ReorganisedNode where
  chain : ActiveChain
  stale : List BlockHeader

namespace ReorganisedNode

variable (rt : Runtime) (node : ReorganisedNode)

/-- The header with a hash, on the active chain or not. -/
def getBlockHeader (hash : Bytes32) : Option BlockHeader :=
  (node.chain.blocks ++ node.stale).find? fun block => block.getBlockHash rt = hash

def reconstructCommitedHeader (hash : Bytes32) (height lastDiffAdjustment : UInt32) :
    Option CommittedBlockHeader := do
  let header ← node.getBlockHeader rt hash
  let prevBlockTimestamps ← (List.finRange 10).foldlM (fun prevBlockTimestamps (i : Fin 10) => do
    guard (i.val + 1 ≤ height.toNat)
    let prevBlockHash ← node.chain.getBlockHash rt (height.toNat - i - 1)
    let block ← node.chain.getBlock rt prevBlockHash
    some (prevBlockTimestamps.set i.rev block.timestamp)) (List.Vector.replicate 10 0)
  some { chainWork := emptyArray, header, lastDiffAdjustment, blockheight := height,
         prevBlockTimestamps }

def nextBlock (mainState : MainState) : Option (BlockHeader × CommittedBlockHeader) := do
  let commitedHeader ← node.reconstructCommitedHeader rt mainState.tipBlockHash
    mainState.blockHeight mainState.lastDiffAdjustment
  let lastSubmittedHeight := commitedHeader.blockheight.toNat
  if lastSubmittedHeight ≥ node.chain.bestHeight then none
  else do
    let blockHash ← node.chain.getBlockHash rt (lastSubmittedHeight + 1)
    let block ← node.chain.getBlock rt blockHash
    some (block, commitedHeader)

/-- The tip of the relay is no block of the active chain. -/
structure Orphans (main : MainState) : Prop where
  linked : node.chain.Linked rt
  reaches : node.chain.firstHeight ≤ main.blockHeight.toNat
  orphaned : ∀ block, node.chain.blockAt main.blockHeight.toNat = some block →
    block.getBlockHash rt ≠ main.tipBlockHash

end ReorganisedNode

/-- One iteration of the relayer's loop, with the state of the node at that time. -/
structure Poll where
  node : ReorganisedNode
  signer : Pubkey
  unixTimestamp : ℤ

def Poll.relay (rt : Runtime) (ledger : Ledger) (poll : Poll) : Ledger :=
  match ledger.mainState.bind (poll.node.nextBlock rt) with
  | none => ledger
  | some (block, commitedHeader) =>
      match process rt ledger
          (submitBlock rt poll.signer poll.unixTimestamp block commitedHeader) with
      | .ok (after, _) => after
      | .error _ => ledger

section Reorganisation

variable {rt : Runtime} {node : ReorganisedNode} {ledger : Ledger} {main : MainState}
  {block : BlockHeader} {commitedHeader : CommittedBlockHeader} {poll : Poll}

/-- A node that has never reorganised is a node with an active chain only. -/
theorem relay_eq_relayBlock (chain : ActiveChain) (signer : Pubkey) (unixTimestamp : ℤ) :
    Poll.relay rt ledger ⟨⟨chain, []⟩, signer, unixTimestamp⟩ =
      relayBlock rt chain signer unixTimestamp ledger := by
  have headers : ReorganisedNode.getBlockHeader rt ⟨chain, []⟩ = chain.getBlock rt := by
    funext hash
    rw [ReorganisedNode.getBlockHeader, List.append_nil, ActiveChain.getBlock]
  have blocks : ReorganisedNode.nextBlock rt ⟨chain, []⟩ = BtcRelay.nextBlock rt chain := by
    funext mainState
    simp only [ReorganisedNode.nextBlock, BtcRelay.nextBlock,
      ReorganisedNode.reconstructCommitedHeader, BtcRelay.reconstructCommitedHeader, headers]
  unfold Poll.relay relayBlock
  rewrite [blocks]
  rfl

/-- What the relayer submits: the next block of the active chain, on the header of the tip. -/
theorem nextBlock_spec (identified : node.chain.Identified rt)
    (polled : node.nextBlock rt main = some (block, commitedHeader)) :
    node.chain.blockAt (main.blockHeight.toNat + 1) = some block ∧
      commitedHeader.header.getBlockHash rt = main.tipBlockHash := by
  simp only [ReorganisedNode.nextBlock, ReorganisedNode.reconstructCommitedHeader,
    Option.bind_eq_bind, Option.bind_eq_some_iff, Option.some.injEq] at polled
  rcases polled with ⟨rebuilt, ⟨header, found, times, _, rfl⟩, polled⟩
  split at polled
  · cases polled
  simp only [Option.bind_eq_some_iff, ActiveChain.getBlockHash, Option.map_eq_some_iff,
    Option.some.injEq, Prod.mk.injEq] at polled
  rcases polled with ⟨_, ⟨next, above, rfl⟩, stored, same, rfl, rfl⟩
  rw [ActiveChain.getBlock_of_mem identified (ActiveChain.mem_of_blockAt above),
    Option.some.injEq] at same
  subst same
  refine ⟨above, ?_⟩
  have hashed := List.find?_some found
  exact of_decide_eq_true hashed

/-- The next block of a chain that has orphaned the tip is refused. -/
theorem relay_of_orphans (present : ledger.mainState = some main)
    (orphans : poll.node.Orphans rt main) : poll.relay rt ledger = ledger := by
  simp only [Poll.relay, present, Option.bind_some]
  split
  · rfl
  · rename_i block commitedHeader polled
    rcases nextBlock_spec orphans.linked.identified polled with ⟨above, tip⟩
    have bounds := ActiveChain.lt_of_blockAt above
    rcases poll.node.chain.exists_blockAt orphans.reaches (by omega) with ⟨parent, below⟩
    have link := orphans.linked.link below above
    split
    · rename_i after events success
      rcases (process_submitBlockHeaders_iff present).mp success with ⟨next, submitted, _⟩
      rcases (submitBlockHeaders_submission_iff (List.cons_ne_nil _ _)).mp submitted with
        ⟨_, children, _, _, accepted, _⟩
      cases accepted with
      | cons checks named tail =>
          apply absurd _ (orphans.orphaned parent below)
          rw [link, ← named, tip]
    · rfl

/-- Once the node has reorganised the tip of the relay away, no number of polls changes the
ledger, whatever the node finds, until it takes the tip back. -/
theorem relay_of_orphaned (present : ledger.mainState = some main) (polls : List Poll)
    (orphaned : ∀ poll ∈ polls, poll.node.Orphans rt main) :
    polls.foldl (Poll.relay rt) ledger = ledger := by
  induction polls with
  | nil => rfl
  | cons poll rest ih =>
      rw [List.foldl_cons, relay_of_orphans present (orphaned poll List.mem_cons_self)]
      apply ih
      intro later member
      exact orphaned later (List.mem_cons_of_mem poll member)

end Reorganisation

namespace Sample

/-- Another block at the height of the relay's tip. -/
def otherBlock : BlockHeader := { nodeStart with nonce := 7 }

def otherNext : BlockHeader :=
  { nodeNext with reversedPrevBlockhash := otherBlock.getBlockHash testnet }

/-- The node after it has replaced the tip of the relay, and found a block on top. -/
def reorganisedNode : ReorganisedNode where
  chain := { firstHeight := 2004, blocks := (node 0).blocks.take 11 ++ [otherBlock, otherNext] }
  stale := [nodeStart]

theorem orphans_reorganisedNode : reorganisedNode.Orphans testnet nodeState where
  linked := by
    have checked : (reorganisedNode.chain.blocks.IsChain fun parent block =>
        parent.getBlockHash testnet = block.reversedPrevBlockhash) ∧
        (reorganisedNode.chain.blocks.map (BlockHeader.getBlockHash testnet)).Nodup :=
      of_decide_eq_true (by decide +kernel)
    exact ⟨checked.1, checked.2⟩
  reaches := by decide
  orphaned := by
    intro block found
    have other : reorganisedNode.chain.blockAt nodeState.blockHeight.toNat = some otherBlock := rfl
    cases other.symm.trans found
    have different : otherBlock.getBlockHash testnet ≠ nodeStart.getBlockHash testnet :=
      of_decide_eq_true (by decide +kernel)
    exact different

end Sample

section

open Sample

theorem relay_of_orphaned_node :
    [⟨reorganisedNode, emptyArray, 1721030000⟩, ⟨reorganisedNode, depositor, 1721033600⟩].foldl
      (Poll.relay testnet) { fundedLedger with mainState := some nodeState } =
        { fundedLedger with mainState := some nodeState } := by
  apply relay_of_orphaned (rfl : _ = some nodeState)
  intro poll member
  rcases List.mem_cons.mp member with rfl | member
  · exact orphans_reorganisedNode
  · rw [List.mem_singleton.mp member]
    exact orphans_reorganisedNode

end

end BtcRelay
