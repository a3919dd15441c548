import BtcRelay.Foundations.MerkleTree
import BtcRelay.Network.Replay
import BtcRelay.Relayer.Proof

/-!
# Inclusion proofs

The program's `compute_merkle` climbs from a txid along a proof, and the relayer's proof
consists of the siblings of a transaction, so a relayer's proof is accepted for every
transaction of every block. The program does not know the depth of the tree: what it
accepts is a node of the tree, which need not be a leaf, with the siblings of that node.
-/

namespace BtcRelay

open Exec MerkleTree

/-- How Bitcoin combines two nodes. -/
def combineHashes (rt : Runtime) (left right : Bytes32) : Bytes32 :=
  rt.sha256d (left.toList ++ right.toList)

def merkleRoot (rt : Runtime) (txids : List Bytes32) : Option Bytes32 :=
  root (combineHashes rt) txids

theorem computeMerkle_eq (rt : Runtime) (reversedTxid : Bytes32) (txIndex : UInt32)
    (reversedMerkleProof : List Bytes32) :
    computeMerkle rt reversedTxid txIndex reversedMerkleProof =
      climb (combineHashes rt) reversedTxid txIndex.toNat reversedMerkleProof := by
  have loop : ∀ (proof : List Bytes32) (node : Bytes32) (index : UInt32),
      (proof.foldl (fun (state : Bytes32 × UInt32) piece =>
        let bytes :=
          if state.2 &&& 0x1 = 0 then state.1.toList ++ piece.toList
          else piece.toList ++ state.1.toList
        (rt.sha256d bytes, state.2 >>> 1)) (node, index)).1 =
      climb (combineHashes rt) node index.toNat proof := by
    intro proof
    induction proof with
    | nil => intro node index; rfl
    | cons piece rest ih =>
        intro node index
        have parity : (index &&& 0x1 = 0) ↔ index.toNat % 2 = 0 := by
          rw [← UInt32.toNat_inj, UInt32.toNat_and]
          exact Nat.and_one_is_mod index.toNat ▸ Iff.rfl
        have half : (index >>> 1).toNat = index.toNat / 2 := by
          rw [UInt32.toNat_shiftRight]
          exact Nat.shiftRight_eq_div_pow index.toNat 1
        rw [List.foldl_cons, ih, half, climb]
        by_cases even : index.toNat % 2 = 0
        · rw [if_pos (parity.mpr even), if_pos even]
          rfl
        · rw [if_neg (fun bit => even (parity.mp bit)), if_neg even]
          rfl
  cases reversedMerkleProof with
  | nil => rfl
  | cons piece rest => exact loop (piece :: rest) reversedTxid txIndex

section Create

variable {rt : Runtime} {hashes : List Bytes32} {position : ℕ} {node : Bytes32}

theorem hashChunks_pad (rt : Runtime) (hashes : List Bytes32) :
    Proof.hashChunks rt (Proof.pad hashes) = .ok (nextLevel (combineHashes rt) hashes) := by
  induction hashes using nextLevel.induct with
  | case1 => rfl
  | case2 last => rfl
  | case3 left right rest ih =>
      have padded : Proof.pad (left :: right :: rest) = left :: right :: Proof.pad rest := by
        have parity : (rest.length + 1 + 1) % 2 = rest.length % 2 := by omega
        simp only [Proof.pad, List.length_cons, parity]
        split
        · rename_i odd
          have nonempty : rest ≠ [] := by
            rintro rfl
            exact odd rfl
          rw [List.getLast?_cons_of_ne_nil (List.cons_ne_nil right rest),
            List.getLast?_cons_of_ne_nil nonempty]
          rfl
        · rfl
      simp only [padded, Proof.hashChunks, ih, ok_bind, nextLevel]
      rfl

/-- The node read from a padded level is the sibling. -/
theorem getElem?_pad (found : hashes[position]? = some node) :
    (Proof.pad hashes)[if position % 2 = 0 then position + 1 else position - 1]? =
      sibling? hashes position := by
  have inRange : position < hashes.length := by
    by_contra outside
    rw [List.getElem?_eq_none (by omega)] at found
    cases found
  simp only [sibling?, Proof.pad]
  by_cases even : position % 2 = 0
  · rw [if_pos even, if_pos even]
    by_cases last : position + 1 < hashes.length
    · have sibling := List.getElem?_eq_getElem last
      rw [sibling, Option.some_or]
      split
      · rw [List.getElem?_append_left last, sibling]
      · exact sibling
    · have length : hashes.length = position + 1 := by omega
      have nonempty : hashes ≠ [] := by
        rintro rfl
        simp at inRange
      rw [List.getElem?_eq_none (by omega : hashes.length ≤ position + 1), Option.none_or,
        if_pos (by omega), List.getElem?_append_right (by omega), length, Nat.sub_self,
        List.getLast?_eq_getElem?, length, Nat.add_sub_cancel, found]
      rfl
  · rw [if_neg even, if_neg even]
    split
    · rw [List.getElem?_append_left (by omega)]
    · rfl

theorem createLoop_eq (found : hashes[position]? = some node) :
    Proof.createLoop rt hashes position =
      .ok (siblings (combineHashes rt) hashes position) := by
  induction hashes, position using siblings.induct (combineHashes rt) generalizing node with
  | case1 => simp at found
  | case2 only =>
      rw [Proof.createLoop, siblings]
      rfl
  | case3 left right rest position ih =>
      rcases getElem?_nextLevel (combineHashes rt) found with ⟨sibling, at_sibling, combined⟩
      have read := getElem?_pad found
      rw [at_sibling] at read
      have half : (if position % 2 = 0 then position + 1 else position - 1) / 2 =
          position / 2 := by
        split <;> omega
      have above := ih combined
      rw [Proof.createLoop, if_pos (by simp), siblings, at_sibling]
      simp only [read, half]
      split
      · rename_i node' next read' hashed
        rw [hashChunks_pad] at hashed
        cases hashed
        cases read'
        rw [above]
        rfl
      · rename_i neither
        exact absurd (hashChunks_pad rt (left :: right :: rest)) (neither _ _ rfl)

/-- The proof that the relayer makes for a position of a block is accepted by the program. -/
theorem computeMerkle_create {txids : List Bytes32} (inRange : position < txids.length)
    (small : txids.length ≤ 2 ^ 32) :
    ∃ proof, Proof.create rt txids position = .ok proof ∧
      some (computeMerkle rt txids[position] (UInt32.ofNat position) proof.toReversedVec) =
        merkleRoot rt txids := by
  have found : txids[position]? = some txids[position] := List.getElem?_eq_getElem inRange
  have index : (UInt32.ofNat position).toNat = position :=
    UInt32.toNat_ofNat_of_lt' (by simp only [UInt32.size]; omega)
  refine ⟨⟨siblings (combineHashes rt) txids position, position⟩, ?_, ?_⟩
  · simp only [Proof.create, if_pos inRange, createLoop_eq found, ok_bind]
  · rw [computeMerkle_eq, index]
    exact climb_siblings (combineHashes rt) found

theorem computeMerkle_create_deposit :
    ∃ proof, Proof.create Sample.mainnet [Sample.coinbaseTxid, Sample.depositTxid] 1 = .ok proof ∧
      some (computeMerkle Sample.mainnet Sample.depositTxid (UInt32.ofNat 1)
        proof.toReversedVec) =
          merkleRoot Sample.mainnet [Sample.coinbaseTxid, Sample.depositTxid] :=
  computeMerkle_create (by decide : 1 < [Sample.coinbaseTxid, Sample.depositTxid].length)
    (by decide)

end Create

section Sound

variable {rt : Runtime} {txids reversedMerkleProof : List Bytes32} {txId : Bytes32}
  {txIndex : UInt32}

/-- The byte strings that are hashed in a block's tree and by the program on a proof. -/
def hashedPairs (rt : Runtime) (txids : List Bytes32) (txId : Bytes32) (txIndex : UInt32)
    (reversedMerkleProof : List Bytes32) : Set (Bytes32 × Bytes32) :=
  { pair | pair ∈ treePairs (combineHashes rt) txids ∨
    pair ∈ climbPairs (combineHashes rt) txId txIndex.toNat reversedMerkleProof }

/-- The assumptions on the double hash: no collision among the pairs hashed in the tree and on
the proof, and no txid of the block is the hash of one of these pairs. -/
structure SoundTree (rt : Runtime) (txids : List Bytes32) (txId : Bytes32) (txIndex : UInt32)
    (reversedMerkleProof : List Bytes32) : Prop where
  collisionFree : Set.InjOn rt.sha256d ((fun pair : Bytes32 × Bytes32 =>
    pair.1.toList ++ pair.2.toList) '' hashedPairs rt txids txId txIndex reversedMerkleProof)
  leafFree : ∀ pair ∈ hashedPairs rt txids txId txIndex reversedMerkleProof,
    rt.sha256d (pair.1.toList ++ pair.2.toList) ∉ txids

/-- What passes the inclusion check against a block is a transaction of the block or an inner node
of its tree. -/
theorem mem_or_innerNode_of_computeMerkle {commitedHeader : CommittedBlockHeader}
    (isRoot : merkleRoot rt txids = some commitedHeader.header.merkleRoot)
    (sound : SoundTree rt txids txId txIndex reversedMerkleProof)
    (passes : computeMerkle rt txId txIndex reversedMerkleProof =
      commitedHeader.header.merkleRoot) :
    txId ∈ txids ∨ txId ∈ innerNodes (combineHashes rt) txids := by
  rw [computeMerkle_eq] at passes
  apply mem_nodes_of_climb isRoot _ _ passes
  · intro first firstMem second secondMem same
    have bytes := sound.collisionFree ⟨first, firstMem, rfl⟩ ⟨second, secondMem, rfl⟩ same
    rcases List.append_inj bytes (by simp) with ⟨lefts, rights⟩
    exact Prod.ext (List.Vector.toList_injective lefts) (List.Vector.toList_injective rights)
  · intro pair member
    exact sound.leafFree pair (Or.inr member)

theorem SoundTree.of_listed (pairs : List (Bytes32 × Bytes32))
    (listed : hashedPairs rt txids txId txIndex reversedMerkleProof ⊆ { pair | pair ∈ pairs })
    (nodup : (pairs.map fun pair => combineHashes rt pair.1 pair.2).Nodup)
    (leafFree : ∀ pair ∈ pairs, combineHashes rt pair.1 pair.2 ∉ txids) :
    SoundTree rt txids txId txIndex reversedMerkleProof where
  collisionFree := by
    rintro _ ⟨first, firstMem, rfl⟩ _ ⟨second, secondMem, rfl⟩ same
    rw [List.inj_on_of_nodup_map nodup (listed firstMem) (listed secondMem) same]
  leafFree := fun pair member => leafFree pair (listed member)

end Sound

section

open Sample

theorem merkleRoot_main1 :
    merkleRoot mainnet [coinbaseTxid, depositTxid] = some main1.header.merkleRoot := by
  have hashed : combineHashes mainnet coinbaseTxid depositTxid = main1.header.merkleRoot :=
    of_decide_eq_true (by decide +kernel)
  simp only [merkleRoot, root, nextLevel, hashed]

/-- The only pair hashed in the tree of the block, and not to one of its txids. -/
theorem soundTree_main1 {txId : Bytes32} {txIndex : UInt32} {proof : List Bytes32}
    (listed : climbPairs (combineHashes mainnet) txId txIndex.toNat proof ⊆
      [(coinbaseTxid, depositTxid)]) :
    SoundTree mainnet [coinbaseTxid, depositTxid] txId txIndex proof := by
  apply SoundTree.of_listed [(coinbaseTxid, depositTxid)]
  · rintro pair (inTree | climbed)
    · rw [treePairs_pair] at inTree
      exact inTree
    · exact listed climbed
  · exact List.nodup_singleton _
  · intro pair member
    have same : pair = (coinbaseTxid, depositTxid) := List.mem_singleton.mp member
    subst same
    exact of_decide_eq_true (by decide +kernel)

theorem mem_or_innerNode_depositTxid : depositTxid ∈ [coinbaseTxid, depositTxid] ∨
    depositTxid ∈ innerNodes (combineHashes mainnet) [coinbaseTxid, depositTxid] := by
  have sound : SoundTree mainnet [coinbaseTxid, depositTxid] depositTxid 1 [coinbaseTxid] :=
    soundTree_main1 (List.Subset.refl _)
  apply mem_or_innerNode_of_computeMerkle merkleRoot_main1 sound
  exact of_decide_eq_true (by decide +kernel)

/-- The Merkle root of a block passes the inclusion check with an empty proof. -/
theorem not_mem_of_computeMerkle_nil :
    merkleRoot mainnet [coinbaseTxid, depositTxid] = some main1.header.merkleRoot ∧
      SoundTree mainnet [coinbaseTxid, depositTxid] main1.header.merkleRoot 0 [] ∧
      computeMerkle mainnet main1.header.merkleRoot 0 [] = main1.header.merkleRoot ∧
      main1.header.merkleRoot ∉ [coinbaseTxid, depositTxid] := by
  refine ⟨merkleRoot_main1, ?_, rfl, ?_⟩
  · exact soundTree_main1 (List.nil_subset _)
  · exact of_decide_eq_true (by decide +kernel)

end

section Exact

variable {rt : Runtime} {txids reversedMerkleProof : List Bytes32} {txId : Bytes32}
  {txIndex : UInt32} {commitedHeader : CommittedBlockHeader}

theorem exists_level_of_computeMerkle
    (isRoot : merkleRoot rt txids = some commitedHeader.header.merkleRoot)
    (sound : SoundTree rt txids txId txIndex reversedMerkleProof)
    (passes : computeMerkle rt txId txIndex reversedMerkleProof =
      commitedHeader.header.merkleRoot) :
    ∃ level ∈ levels (combineHashes rt) txids, ∃ position, level[position]? = some txId ∧
      reversedMerkleProof = siblings (combineHashes rt) level position ∧
      SameWay (combineHashes rt) level position txIndex.toNat := by
  rw [computeMerkle_eq] at passes
  apply exists_level_of_climb isRoot _ _ passes
  · intro first firstMem second secondMem same
    have bytes := sound.collisionFree ⟨first, firstMem, rfl⟩ ⟨second, secondMem, rfl⟩ same
    rcases List.append_inj bytes (by simp) with ⟨lefts, rights⟩
    exact Prod.ext (List.Vector.toList_injective lefts) (List.Vector.toList_injective rights)
  · intro pair member
    exact sound.leafFree pair (Or.inr member)

/-- The inclusion check accepts a node of the tree with its siblings and nothing else. Of the
index it reads one bit for each sibling. -/
theorem computeMerkle_eq_root_iff
    (isRoot : merkleRoot rt txids = some commitedHeader.header.merkleRoot)
    (sound : SoundTree rt txids txId txIndex reversedMerkleProof) :
    computeMerkle rt txId txIndex reversedMerkleProof = commitedHeader.header.merkleRoot ↔
      ∃ level ∈ levels (combineHashes rt) txids, ∃ position, level[position]? = some txId ∧
        reversedMerkleProof = siblings (combineHashes rt) level position ∧
        SameWay (combineHashes rt) level position txIndex.toNat := by
  refine ⟨exists_level_of_computeMerkle isRoot sound, ?_⟩
  rintro ⟨level, member, position, found, rfl, sameWay⟩
  have climbs := climb_siblings_of_sameWay found sameWay
  rw [root_of_mem_levels member, ← merkleRoot, isRoot, Option.some.injEq] at climbs
  rw [computeMerkle_eq, climbs]

open Sample in
theorem computeMerkle_eq_root_depositTxid :
    computeMerkle mainnet depositTxid 1 [coinbaseTxid] = main1.header.merkleRoot ↔
      ∃ level ∈ levels (combineHashes mainnet) [coinbaseTxid, depositTxid],
        ∃ position, level[position]? = some depositTxid ∧
          [coinbaseTxid] = siblings (combineHashes mainnet) level position ∧
          SameWay (combineHashes mainnet) level position 1 :=
  computeMerkle_eq_root_iff merkleRoot_main1 (soundTree_main1 (List.Subset.refl _))

end Exact

end BtcRelay
