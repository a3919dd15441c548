import BtcRelay.Chain.Progress

/-!
# Blocks with an easy target

On the test network every second hash is below the easiest target, so long chains are
mined by trying a few nonces. The hashes of such a chain are computed on the numbers that
the serialized headers stand for, one header after the other, with the results forced
before the next one, and the commitments are told apart by their residues.
-/

namespace BtcRelay

open BigEndian Sha256 Exec

/-- Evaluates a number before it is used. -/
def force {α : Type} (number : ℕ) (rest : ℕ → α) : α :=
  match number with
  | 0 => rest 0
  | Nat.succ number => rest (Nat.succ number)

theorem force_eq {α : Type} (number : ℕ) (rest : ℕ → α) : force number rest = rest number := by
  cases number with
  | zero => rfl
  | succ number => rfl

def littleEndian (number : ℕ) : ℕ :=
  number % 2 ^ 8 * 256 ^ 3 + number / 2 ^ 8 % 2 ^ 8 * 256 ^ 2 + number / 2 ^ 16 % 2 ^ 8 * 256 +
    number / 2 ^ 24 % 2 ^ 8

section Numbers

theorem bytesNumber_leBytes (number : UInt32) :
    bytesNumber (leBytes number) = littleEndian number.toNat := by
  have one : UInt32.toNat 8 % 32 = 8 := rfl
  have two : UInt32.toNat 16 % 32 = 16 := rfl
  have three : UInt32.toNat 24 % 32 = 24 := rfl
  simp only [bytesNumber, leBytes, List.foldl_cons, List.foldl_nil, Nat.add_eq, Nat.mul_eq,
    UInt32.toNat_toUInt8, UInt32.toNat_shiftRight, Nat.shiftRight_eq_div_pow, one, two, three,
    littleEndian]
  ring

theorem bytesNumber_tryToVec (header : BlockHeader) :
    bytesNumber header.tryToVec =
      append (append (append (append (append (littleEndian header.version.toNat) 32
        (value header.reversedPrevBlockhash)) 32 (value header.merkleRoot)) 4
        (littleEndian header.timestamp.toNat)) 4 (littleEndian header.nbits.toNat)) 4
        (littleEndian header.nonce.toNat) := by
  simp only [BlockHeader.tryToVec, bytesNumber_append, bytesNumber_leBytes, bytesNumber_toList,
    leBytes_length, List.Vector.toList_length]

theorem bytesNumber_tryToVec_committed (committed : CommittedBlockHeader) :
    bytesNumber committed.tryToVec =
      append (append (append (append (value committed.chainWork) 80
        (bytesNumber committed.header.tryToVec)) 4
        (littleEndian committed.lastDiffAdjustment.toNat)) 4
        (littleEndian committed.blockheight.toNat)) 40
        (bytesNumber (committed.prevBlockTimestamps.toList.flatMap leBytes)) := by
  have length : (committed.prevBlockTimestamps.toList.flatMap leBytes).length = 40 := by
    simp
  simp only [CommittedBlockHeader.tryToVec, bytesNumber_append, bytesNumber_leBytes,
    bytesNumber_toList, leBytes_length, BlockHeader.tryToVec_length, length]

theorem value_hash (message : List UInt8) :
    value (hash message) = hashNumber message.length (bytesNumber message) % 256 ^ 32 :=
  value_ofNat _ _

end Numbers

namespace Sample

def testnet : Runtime := deployed true []

def easyHeader (parent : CommittedBlockHeader) (nonce : ℕ) : BlockHeader where
  version := 0x20000000
  reversedPrevBlockhash := parent.header.getBlockHash testnet
  merkleRoot := emptyArray
  timestamp := parent.header.timestamp + 1
  nbits := 0x207fffff
  nonce := UInt32.ofNat nonce

/-- A number of blocks with easy targets, with the nonces as the digits of a number. -/
def easyBlocks : ℕ → ℕ → CommittedBlockHeader → List CommittedBlockHeader
  | 0, _, _ => []
  | count + 1, nonces, parent =>
      let child := parent.commit (easyHeader parent (nonces % 16))
      child :: easyBlocks count (nonces / 16) child

/-- The numbers that the next hashes are computed from. -/
structure EasyTip (tip : CommittedBlockHeader) (hash time height window : ℕ) : Prop where
  blockHash : value (tip.header.getBlockHash testnet) = hash
  timestamp : tip.header.timestamp.toNat = time
  blockheight : tip.blockheight.toNat = height
  timestamps : bytesNumber (tip.prevBlockTimestamps.toList.flatMap leBytes) = window
  earlier : ∀ other ∈ tip.prevBlockTimestamps.toList, other.toNat ≤ time
  chainWork : value tip.chainWork = value start.chainWork
  lastDiffAdjustment : tip.lastDiffAdjustment = start.lastDiffAdjustment

/-- The serialized header of an easy block. -/
def easyNumber (parent time nonce : ℕ) : ℕ :=
  append (append (append (append (append (littleEndian 0x20000000) 32 parent) 32 0) 4
    (littleEndian time)) 4 (littleEndian 0x207fffff)) 4 (littleEndian nonce)

/-- The serialized committed header of an easy block. -/
def easyCommitted (header height window : ℕ) : ℕ :=
  append (append (append (append 1000 80 header) 4 (littleEndian 1720424744)) 4
    (littleEndian height)) 40 window

/-- Commitments are told apart by their residues. -/
def residue (commitment : ℕ) : ℕ := commitment % 15362

def mark (marks commitment : ℕ) : ℕ := marks ||| 1 <<< residue commitment

/-- Checks the hashes of easy blocks, that their commitments have residues that are not yet marked,
and the numbers after the last block. -/
def easyChecked (last : ℕ → ℕ → ℕ → ℕ → ℕ → ℕ → Bool) : ℕ → ℕ → ℕ → ℕ → ℕ → ℕ → ℕ → Bool
  | 0, nonces, parent, time, height, window, marks => last nonces parent time height window marks
  | count + 1, nonces, parent, time, height, window, marks =>
      force (hashNumber 80 (easyNumber parent (time + 1) (nonces % 16)) % 256 ^ 32) fun first =>
      force (hashNumber 32 first % 256 ^ 32) fun hash =>
      force (window % 256 ^ 36 * 256 ^ 4 + littleEndian time) fun nextWindow =>
      force (hashNumber 160 (easyCommitted (easyNumber parent (time + 1) (nonces % 16)) (height + 1)
        nextWindow) % 256 ^ 32) fun commitment =>
      force (time + 1) fun nextTime =>
      force (height + 1) fun nextHeight =>
      force (nonces / 16) fun nextNonces =>
      force (mark marks commitment) fun nextMarks =>
      Nat.blt (hash % 256) 127 && Nat.blt nextHeight 2016 && Nat.blt nextTime 1721044400 &&
        !Nat.testBit marks (residue commitment) &&
        easyChecked last count nextNonces hash nextTime nextHeight nextWindow nextMarks

def reaches (nonces parent time height window marks : ℕ) (nonces' parent' time' height' window'
    marks' : ℕ) : Bool :=
  Nat.beq nonces' nonces && Nat.beq parent' parent && Nat.beq time' time &&
    Nat.beq height' height && Nat.beq window' window && Nat.beq marks' marks

/-- A long chain is checked in parts, from the numbers that the part before reaches. -/
theorem easyChecked_add {last : ℕ → ℕ → ℕ → ℕ → ℕ → ℕ → Bool} {nonces' parent' time' height'
    window' marks' : ℕ} {first rest : ℕ} {nonces parent time height window marks : ℕ}
    (before : easyChecked (reaches nonces' parent' time' height' window' marks') first nonces parent
      time height window marks = true)
    (after : easyChecked last rest nonces' parent' time' height' window' marks' = true) :
    easyChecked last (first + rest) nonces parent time height window marks = true := by
  induction first generalizing nonces parent time height window marks with
  | zero =>
      simp only [easyChecked, reaches, Bool.and_eq_true, Nat.beq_eq] at before
      rcases before with ⟨⟨⟨⟨⟨rfl, rfl⟩, rfl⟩, rfl⟩, rfl⟩, rfl⟩
      rw [Nat.zero_add]
      exact after
  | succ first ih =>
      rw [Nat.succ_add]
      simp only [easyChecked, force_eq, Bool.and_eq_true] at before ⊢
      exact ⟨before.1, ih before.2⟩

section

variable {tip : CommittedBlockHeader} {hash time height window nonce : ℕ}

theorem bytesNumber_easyHeader (easy : EasyTip tip hash time height window)
    (timestamp : (easyHeader tip nonce).timestamp.toNat = time + 1) (small : nonce < 16) :
    bytesNumber (easyHeader tip nonce).tryToVec = easyNumber hash (time + 1) nonce := by
  have version : UInt32.toNat 0x20000000 = 0x20000000 := rfl
  have bits : UInt32.toNat 0x207fffff = 0x207fffff := rfl
  have nonceEq : (UInt32.ofNat nonce).toNat = nonce :=
    UInt32.toNat_ofNat_of_lt' (by simp only [UInt32.size]; omega)
  have root : value emptyArray = 0 := value_replicate_zero
  simp only [easyHeader] at timestamp
  simp only [bytesNumber_tryToVec, easyHeader, easy.blockHash, timestamp, nonceEq, root, version,
    bits, easyNumber]

theorem value_getBlockHash (header : BlockHeader) :
    value (header.getBlockHash testnet) =
      hashNumber 32 (hashNumber 80 (bytesNumber header.tryToVec) % 256 ^ 32) % 256 ^ 32 := by
  have deployed : header.getBlockHash testnet =
      Sha256.hash (Sha256.hash header.tryToVec).toList := rfl
  rw [deployed, value_hash, bytesNumber_toList, List.Vector.toList_length, value_hash,
    BlockHeader.tryToVec_length]

theorem value_getCommitHash (committed : CommittedBlockHeader) :
    value (committed.getCommitHash testnet) =
      hashNumber 160 (bytesNumber committed.tryToVec) % 256 ^ 32 := by
  have deployed : committed.getCommitHash testnet = Sha256.hash committed.tryToVec := rfl
  have length : committed.tryToVec.length = 160 := by
    simp [CommittedBlockHeader.tryToVec]
  rw [deployed, value_hash, length]

theorem addedWork_easyHeader : (easyHeader tip nonce).addedWork = 0 := by
  simp only [BlockHeader.addedWork, easyHeader]
  decide

theorem bytesNumber_shiftTimestamps (arr : List.Vector UInt32 10) (timestamp : UInt32) :
    bytesNumber ((shiftTimestamps arr timestamp).toList.flatMap leBytes) =
      bytesNumber (arr.toList.flatMap leBytes) % 256 ^ 36 * 256 ^ 4 +
        littleEndian timestamp.toNat := by
  obtain ⟨first, rest, rfl⟩ := List.Vector.exists_eq_cons arr
  have length : (rest.toList.flatMap leBytes).length = 36 := by simp
  have bound := bytesNumber_lt (rest.toList.flatMap leBytes)
  have shifted :
      (shiftTimestamps (first ::ᵥ rest) timestamp).toList = rest.toList ++ [timestamp] := by
    rw [shiftTimestamps, List.Vector.snoc, List.Vector.toList_append]
    rfl
  rw [length] at bound
  rw [shifted, List.flatMap_append, List.flatMap_singleton, bytesNumber_append, leBytes_length,
    bytesNumber_leBytes, List.Vector.toList_cons, List.flatMap_cons, bytesNumber_append, length,
    append, append, Nat.mul_add_mod_self_right, Nat.mod_eq_of_lt bound]

/-- A hash that ends in a small byte is low enough for the easy target. -/
theorem value_reverse_le {hash : Bytes32} (small : value hash % 256 < 127) :
    value hash.reverse ≤ Bitcoin.setCompact (UInt32.toNat 0x207fffff) := by
  have bound : value hash.reverse < (value hash % 256 + 1) * 256 ^ 31 := value_reverse_lt hash
  have scaled : (value hash % 256 + 1) * 256 ^ 31 ≤ 127 * 256 ^ 31 :=
    Nat.mul_le_mul_right _ (by omega)
  have target : 127 * 256 ^ 31 ≤ Bitcoin.setCompact (UInt32.toNat 0x207fffff) := by decide
  omega

/-- An easy block whose hash is low enough can be submitted. -/
theorem EasyTip.submittable (easy : EasyTip tip hash time height window)
    (inTime : time + 1 < 1721044400) (low : height + 1 < 2016)
    (enoughWork : value ((easyHeader tip nonce).getBlockHash testnet) % 256 < 127) :
    Submittable testnet 1721030000 tip (tip.commit (easyHeader tip nonce)) := by
  have one : UInt32.toNat 1 = 1 := rfl
  have bits : (tip.commit (easyHeader tip nonce)).header.nbits = 0x207fffff := rfl
  have timestamp : (tip.commit (easyHeader tip nonce)).header.timestamp.toNat = time + 1 := by
    simp only [CommittedBlockHeader.commit, easyHeader, UInt32.toNat_add, easy.timestamp, one]
    omega
  have height := easy.blockheight
  refine ⟨rfl, ?_⟩
  apply headerChecks_commit
  · intro mainnet
    cases mainnet
  · rw [bits]
    decide
  · rw [bits]
    decide
  · rw [bits]
    exact value_reverse_le enoughWork
  · apply (isLargerThanMedian_iff _ _ _).mpr
    apply OrderStatistics.median_lt_of_forall (List.cons_ne_nil _ _)
    intro other member
    rcases List.mem_cons.mp member with rfl | member
    · rw [timestamp, easy.timestamp]
      omega
    · rcases List.mem_map.mp (List.mem_reverse.mp member) with ⟨earlier, inWindow, rfl⟩
      have bound := easy.earlier earlier inWindow
      omega
  · rw [timestamp]
    omega
  · omega

theorem EasyTip.step (easy : EasyTip tip hash time height window) (small : nonce < 16)
    (inTime : time + 1 < 1721044400) (low : height + 1 < 2016) :
    EasyTip (tip.commit (easyHeader tip nonce))
        (hashNumber 32 (hashNumber 80 (easyNumber hash (time + 1) nonce) % 256 ^ 32) % 256 ^ 32)
        (time + 1) (height + 1) (window % 256 ^ 36 * 256 ^ 4 + littleEndian time) ∧
      value ((tip.commit (easyHeader tip nonce)).getCommitHash testnet) =
        hashNumber 160 (easyCommitted (easyNumber hash (time + 1) nonce) (height + 1)
          (window % 256 ^ 36 * 256 ^ 4 + littleEndian time)) % 256 ^ 32 := by
  have one : UInt32.toNat 1 = 1 := rfl
  have timestamp : (easyHeader tip nonce).timestamp.toNat = time + 1 := by
    simp only [easyHeader, UInt32.toNat_add, easy.timestamp, one]
    omega
  have blockheight : (tip.commit (easyHeader tip nonce)).blockheight.toNat = height + 1 := by
    have height := easy.blockheight
    rw [CommittedBlockHeader.toNat_blockheight_commit (by omega), height]
  have header : bytesNumber (tip.commit (easyHeader tip nonce)).header.tryToVec =
      easyNumber hash (time + 1) nonce := bytesNumber_easyHeader easy timestamp small
  have window' : bytesNumber ((tip.commit (easyHeader tip nonce)).prevBlockTimestamps.toList.flatMap
      leBytes) = window % 256 ^ 36 * 256 ^ 4 + littleEndian time := by
    rw [← easy.timestamps, ← easy.timestamp]
    exact bytesNumber_shiftTimestamps _ _
  have chainWork : value (tip.commit (easyHeader tip nonce)).chainWork = value start.chainWork := by
    simp only [CommittedBlockHeader.commit, addedWork_easyHeader, easy.chainWork, value_ofNat,
      Nat.add_zero]
    exact Nat.mod_eq_of_lt (value_lt _)
  have adjustment : (tip.commit (easyHeader tip nonce)).lastDiffAdjustment =
      start.lastDiffAdjustment := by
    have inside : shouldDiffAdjust (tip.commit (easyHeader tip nonce)).blockheight = false := by
      rw [← Bool.not_eq_true, shouldDiffAdjust_iff, blockheight]
      omega
    simp only [CommittedBlockHeader.commit] at inside ⊢
    rw [inside]
    exact easy.lastDiffAdjustment
  refine ⟨⟨?_, timestamp, blockheight, window', ?_, chainWork, adjustment⟩, ?_⟩
  · rw [value_getBlockHash, header]
  · intro other member
    have shifted : (tip.commit (easyHeader tip nonce)).prevBlockTimestamps.toList =
        tip.prevBlockTimestamps.toList.tail ++ [tip.header.timestamp] := by
      simp only [CommittedBlockHeader.commit, shiftTimestamps, List.Vector.snoc,
        List.Vector.toList_append, List.Vector.toList_tail]
      rfl
    rw [shifted, List.mem_append, List.mem_singleton] at member
    rcases member with old | rfl
    · have bound := easy.earlier other (List.mem_of_mem_tail old)
      omega
    · rw [easy.timestamp]
      omega
  · have work : value start.chainWork = 1000 := by decide
    have adjusted : start.lastDiffAdjustment.toNat = 1720424744 := by decide
    rw [value_getCommitHash, bytesNumber_tryToVec_committed, chainWork, adjustment, blockheight,
      window', work, adjusted, header, easyCommitted]

def residueOf (committed : CommittedBlockHeader) : ℕ :=
  residue (value (committed.getCommitHash testnet))

theorem testBit_mark (marks commitment other : ℕ) :
    (mark marks commitment).testBit other =
      (marks.testBit other || residue commitment = other) := by
  simp only [mark, Nat.testBit_or, Nat.one_shiftLeft, Nat.testBit_two_pow]

/-- Checked blocks can be submitted one by one, and have commitments with residues that differ
from each other and from the marked ones. -/
theorem easyBlocks_of_checked {last : ℕ → ℕ → ℕ → ℕ → ℕ → ℕ → Bool} {count nonces marks : ℕ}
    (easy : EasyTip tip hash time height window)
    (checked : easyChecked last count nonces hash time height window marks = true) :
    (tip :: easyBlocks count nonces tip).IsChain (Submittable testnet 1721030000) ∧
      value ((easyBlocks count nonces tip).getLastD tip).chainWork = value start.chainWork ∧
      (easyBlocks count nonces tip).length = count ∧
      ((easyBlocks count nonces tip).map residueOf).Nodup ∧
      ∀ block ∈ easyBlocks count nonces tip, marks.testBit (residueOf block) = false := by
  induction count generalizing nonces tip hash time height window marks with
  | zero => exact ⟨.singleton _, easy.chainWork, rfl, .nil, by simp [easyBlocks]⟩
  | succ count ih =>
      simp only [easyChecked, force_eq, Bool.and_eq_true, Bool.not_eq_true', Nat.blt_eq] at checked
      rcases checked with ⟨⟨⟨⟨enoughWork, low⟩, inTime⟩, unmarked⟩, checked⟩
      have small : nonces % 16 < 16 := Nat.mod_lt _ (by omega)
      rcases easy.step small inTime low with ⟨next, commitment⟩
      rcases ih next checked with ⟨chain, work, length, nodup, fresh⟩
      have residueEq : residueOf (tip.commit (easyHeader tip (nonces % 16))) = residue _ :=
        congrArg residue commitment
      rw [← residueEq] at unmarked
      have fresh (block) (member : block ∈ easyBlocks count (nonces / 16)
          (tip.commit (easyHeader tip (nonces % 16)))) :
          marks.testBit (residueOf block) = false ∧
            residueOf (tip.commit (easyHeader tip (nonces % 16))) ≠ residueOf block := by
        have unmarked := fresh block member
        rw [testBit_mark, Bool.or_eq_false_iff, ← residueEq] at unmarked
        exact ⟨unmarked.1, of_decide_eq_false unmarked.2⟩
      have first : Submittable testnet 1721030000 tip
          (tip.commit (easyHeader tip (nonces % 16))) := by
        apply easy.submittable inTime low
        have blockHash := next.blockHash
        simp only [CommittedBlockHeader.commit] at blockHash
        rw [blockHash]
        exact enoughWork
      simp only [easyBlocks]
      refine ⟨.cons_cons first chain, ?_, ?_, ?_, ?_⟩
      · rw [List.getLastD_cons]
        exact work
      · rw [List.length_cons, length]
      · rw [List.map_cons, List.nodup_cons]
        refine ⟨?_, nodup⟩
        intro member
        rcases List.mem_map.mp member with ⟨block, inRest, same⟩
        exact (fresh block inRest).2 same.symm
      · intro block member
        rcases List.mem_cons.mp member with rfl | inRest
        · exact unmarked
        · exact (fresh block inRest).1

end

end Sample

end BtcRelay
