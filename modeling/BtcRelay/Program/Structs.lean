import BtcRelay.Program.Runtime

/-!
# Block headers

The structures of `structs.rs` and their Borsh serialization, which is what the two
hash functions of the program are applied to.
-/

namespace BtcRelay

def leBytes (number : UInt32) : List UInt8 :=
  [number.toUInt8, (number >>> 8).toUInt8, (number >>> 16).toUInt8, (number >>> 24).toUInt8]

@[simp]
theorem leBytes_length (number : UInt32) : (leBytes number).length = 4 := rfl

theorem leBytes_injective : Function.Injective leBytes := by
  intro first second same
  have one : UInt32.toNat 8 % 32 = 8 := rfl
  have two : UInt32.toNat 16 % 32 = 16 := rfl
  have three : UInt32.toNat 24 % 32 = 24 := rfl
  have firstBound := first.toNat_lt
  have secondBound := second.toNat_lt
  simp only [leBytes, List.cons.injEq, and_true, ← UInt8.toNat_inj, UInt32.toNat_toUInt8,
    UInt32.toNat_shiftRight, Nat.shiftRight_eq_div_pow, one, two, three] at same
  apply UInt32.toNat_inj.mp
  omega

theorem flatMap_injective {α β : Type} {encode : α → List β} {width : ℕ} (positive : 0 < width)
    (lengths : ∀ element, (encode element).length = width)
    (injective : Function.Injective encode) : Function.Injective (List.flatMap encode) := by
  intro first
  induction first with
  | nil =>
      intro second same
      cases second with
      | nil => rfl
      | cons head tail =>
          have empty := congrArg List.length same
          simp only [List.flatMap_nil, List.length_nil, List.flatMap_cons, List.length_append,
            lengths] at empty
          omega
  | cons head tail ih =>
      intro second same
      cases second with
      | nil =>
          have empty := congrArg List.length same
          simp only [List.flatMap_nil, List.length_nil, List.flatMap_cons, List.length_append,
            lengths] at empty
          omega
      | cons other rest =>
          simp only [List.flatMap_cons] at same
          rcases List.append_inj same (by rw [lengths, lengths]) with ⟨heads, tails⟩
          rw [injective heads, ih tails]

structure BlockHeader where
  version : UInt32
  reversedPrevBlockhash : Bytes32
  merkleRoot : Bytes32
  timestamp : UInt32
  nbits : UInt32
  nonce : UInt32
deriving DecidableEq

namespace BlockHeader

def tryToVec (header : BlockHeader) : List UInt8 :=
  leBytes header.version ++ header.reversedPrevBlockhash.toList ++ header.merkleRoot.toList ++
    leBytes header.timestamp ++ leBytes header.nbits ++ leBytes header.nonce

@[simp]
theorem tryToVec_length (header : BlockHeader) : header.tryToVec.length = 80 := by
  simp [tryToVec]

theorem tryToVec_injective : Function.Injective tryToVec := by
  intro first second same
  simp only [tryToVec] at same
  rcases List.append_inj' same rfl with ⟨same, nonces⟩
  rcases List.append_inj' same rfl with ⟨same, nbits⟩
  rcases List.append_inj' same rfl with ⟨same, timestamps⟩
  rcases List.append_inj' same (by simp) with ⟨same, roots⟩
  rcases List.append_inj' same (by simp) with ⟨versions, parents⟩
  cases first
  cases second
  simp only [mk.injEq]
  exact ⟨leBytes_injective versions, List.Vector.toList_injective parents,
    List.Vector.toList_injective roots, leBytes_injective timestamps, leBytes_injective nbits,
    leBytes_injective nonces⟩

def getBlockHash (rt : Runtime) (header : BlockHeader) : Bytes32 :=
  rt.sha256 (rt.sha256 header.tryToVec).toList

end BlockHeader

/-- A Bitcoin block header with the data needed to verify its successor. -/
structure CommittedBlockHeader where
  chainWork : Bytes32
  header : BlockHeader
  lastDiffAdjustment : UInt32
  blockheight : UInt32
  prevBlockTimestamps : List.Vector UInt32 10
deriving DecidableEq

namespace CommittedBlockHeader

def tryToVec (committed : CommittedBlockHeader) : List UInt8 :=
  committed.chainWork.toList ++ committed.header.tryToVec ++
    leBytes committed.lastDiffAdjustment ++ leBytes committed.blockheight ++
    committed.prevBlockTimestamps.toList.flatMap leBytes

/-- The serialization determines the committed header. -/
theorem tryToVec_injective : Function.Injective tryToVec := by
  intro first second same
  simp only [tryToVec] at same
  rcases List.append_inj same (by simp) with ⟨same, times⟩
  rcases List.append_inj' same rfl with ⟨same, heights⟩
  rcases List.append_inj' same rfl with ⟨same, adjustments⟩
  rcases List.append_inj' same (by simp) with ⟨works, headers⟩
  cases first
  cases second
  simp only [mk.injEq]
  exact ⟨List.Vector.toList_injective works, BlockHeader.tryToVec_injective headers,
    leBytes_injective adjustments, leBytes_injective heights,
    List.Vector.toList_injective
      (flatMap_injective (by omega) leBytes_length leBytes_injective times)⟩

/-- The fingerprint of the committed header that is kept in the ring buffer. -/
def getCommitHash (rt : Runtime) (committed : CommittedBlockHeader) : Bytes32 :=
  rt.sha256 committed.tryToVec

end CommittedBlockHeader

end BtcRelay
