import BtcRelay.Program.Runtime

/-!
# The relayer's inclusion proofs

`Proof::create` of the relayer's `merkle.rs`: the siblings of a transaction, collected
level by level from the txids of its block.
-/

namespace BtcRelay

open Exec

/-- An inclusion proof of the transaction at a position. -/
structure Proof where
  proof : List Bytes32
  position : ℕ

namespace Proof

/-- The nodes of a padded level, hashed in chunks of two; a chunk of one panics. -/
def hashChunks (rt : Runtime) : List Bytes32 → Exec (List Bytes32)
  | [] => .ok []
  | [_] => abort
  | left :: right :: rest => do
      let hashes ← hashChunks rt rest
      .ok (rt.sha256d (left.toList ++ right.toList) :: hashes)

/-- The level with its last node repeated when its length is odd. -/
def pad (hashes : List Bytes32) : List Bytes32 :=
  if hashes.length % 2 ≠ 0 then hashes ++ hashes.getLast?.toList else hashes

theorem length_of_hashChunks {rt : Runtime} {level next : List Bytes32}
    (hashed : hashChunks rt level = .ok next) : level.length = 2 * next.length := by
  induction level using hashChunks.induct generalizing next with
  | case1 =>
      simp only [hashChunks, Except.ok.injEq] at hashed
      rw [← hashed]
      rfl
  | case2 last => simp [hashChunks] at hashed
  | case3 left right rest ih =>
      simp only [hashChunks, bind_eq_ok_iff, Except.ok.injEq] at hashed
      rcases hashed with ⟨hashes, restHashed, rfl⟩
      have length := ih restHashed
      simp only [List.length_cons]
      omega

theorem length_pad_le (hashes : List Bytes32) : (pad hashes).length ≤ hashes.length + 1 := by
  simp only [pad]
  split
  · rw [List.length_append]
    have : hashes.getLast?.toList.length ≤ 1 := Option.length_toList_le
    omega
  · omega

def createLoop (rt : Runtime) (hashes : List Bytes32) (offset : ℕ) : Exec (List Bytes32) :=
  if hashes.length > 1 then
    let padded := pad hashes
    let sibling := if offset % 2 = 0 then offset + 1 else offset - 1
    match padded[sibling]?, hashed : hashChunks rt padded with
    | some node, .ok next => do
        let proof ← createLoop rt next (sibling / 2)
        .ok (node :: proof)
    | _, _ => abort
  else .ok []
termination_by hashes.length
decreasing_by
  have halved : (pad hashes).length = 2 * next.length := length_of_hashChunks hashed
  have bound := length_pad_le hashes
  omega

def create (rt : Runtime) (txids : List Bytes32) (position : ℕ) : Exec Proof :=
  if position < txids.length then do
    let proof ← createLoop rt txids position
    .ok { proof, position }
  else abort

/-- The nodes as the program takes them. -/
def toReversedVec (self : Proof) : List Bytes32 := self.proof

end Proof

end BtcRelay
