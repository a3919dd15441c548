import BtcRelay.Bitcoin.Compact
import BtcRelay.Program.Utils
import Mathlib.Data.Nat.Bitwise

/-!
# The program's targets are Bitcoin's

The byte-array functions on targets compute Bitcoin's: `nbits_to_target` and
`target_to_nbits` are the decoding and the encoding of compact targets,
`compute_new_nbits` is the retarget rule, and `get_difficulty` divides the target of
difficulty one, for targets of at least three bytes.
-/

namespace BtcRelay

open Exec BigEndian Bitcoin

section Decode

/-- One assignment of the loop of `nbitsToTarget`. -/
def assignByte (target : Bytes32) (position : ℕ) (byte : UInt8) : Bytes32 :=
  if inRange : position < 32 then target.set ⟨position, inRange⟩ byte else target

theorem value_assignByte (target : Bytes32) (position : ℕ) (byte : UInt8)
    (zero : 256 ^ (32 - position) ∣ value target) :
    value (assignByte target position byte) = value target +
        (if position < 32 then byte.toNat * 256 ^ (31 - position) else 0) ∧
      256 ^ (32 - (position + 1)) ∣ value (assignByte target position byte) := by
  by_cases inRange : position < 32
  · have power : 256 ^ (32 - position) = 256 ^ (31 - position) * 256 := by
      rw [← Nat.pow_succ]
      congr 1
      omega
    rw [power] at zero
    have slot : (target.get ⟨position, inRange⟩).toNat = 0 := by
      have index : 32 - 1 - position = 31 - position := rfl
      rcases zero with ⟨factor, equal⟩
      rw [get_toNat, equal, Nat.mul_assoc, index,
        Nat.mul_div_cancel_left _ (Nat.pow_pos (by decide)), Nat.mul_mod_right]
    have exchange := value_set target ⟨position, inRange⟩ byte
    rw [slot, Nat.zero_mul, Nat.add_zero] at exchange
    have index : 32 - (position + 1) = 31 - position := by omega
    rw [assignByte, dif_pos inRange, if_pos inRange, exchange, index]
    refine ⟨rfl, Dvd.dvd.add (dvd_trans (Dvd.intro _ rfl) zero) ?_⟩
    exact Dvd.intro_left byte.toNat rfl
  · have index : 32 - (position + 1) = 0 := by omega
    rw [assignByte, dif_neg inRange, if_neg inRange, Nat.add_zero, index, Nat.pow_zero]
    exact ⟨rfl, one_dvd _⟩

theorem compact_bytes (nbits : UInt32) :
    (((nbits >>> 16) &&& 0x7F).toUInt8).toNat = nbits.toNat / 2 ^ 16 % 2 ^ 7 ∧
      (((nbits >>> 8) &&& 0xFF).toUInt8).toNat = nbits.toNat / 2 ^ 8 % 2 ^ 8 ∧
      ((nbits &&& 0xFF).toUInt8).toNat = nbits.toNat % 2 ^ 8 ∧
      ((nbits >>> 24) &&& 0xFF).toNat = nbits.toNat / 2 ^ 24 := by
  have bound := nbits.toNat_lt
  have byte : ∀ number : ℕ, number &&& 255 = number % 2 ^ 8 := fun number =>
    Nat.and_two_pow_sub_one_eq_mod number 8
  have word : ∀ number : ℕ, number &&& 127 = number % 2 ^ 7 := fun number =>
    Nat.and_two_pow_sub_one_eq_mod number 7
  have mask : (0xFF : UInt32).toNat = 255 := rfl
  have shortMask : (0x7F : UInt32).toNat = 127 := rfl
  have shifts : (16 : UInt32).toNat % 32 = 16 ∧ (8 : UInt32).toNat % 32 = 8 ∧
      (24 : UInt32).toNat % 32 = 24 := ⟨rfl, rfl, rfl⟩
  rcases shifts with ⟨shift16, shift8, shift24⟩
  simp only [UInt32.toNat_toUInt8, UInt32.toNat_and, UInt32.toNat_shiftRight, mask, shortMask,
    shift16, shift8, shift24, Nat.shiftRight_eq_div_pow, byte, word]
  omega

/-- Decoding gives Bitcoin's target, for the sizes that fit in 32 bytes. -/
theorem nbitsToTarget_eq_ok_iff {nbits : UInt32} {target : Bytes32} :
    nbitsToTarget nbits = .ok target ↔
      nbits.toNat / 2 ^ 24 ≤ 32 ∧ value target = setCompact nbits.toNat := by
  rcases compact_bytes nbits with ⟨high, middle, low, size⟩
  have wide : (32 : UInt32).toNat = 32 := rfl
  have decoded : ∀ start : ℕ, nbits.toNat / 2 ^ 24 + start = 32 →
      value (assignByte (assignByte (assignByte emptyArray (start + 0)
        ((nbits >>> 16) &&& 0x7F).toUInt8) (start + 1) ((nbits >>> 8) &&& 0xFF).toUInt8) (start + 2)
        (nbits &&& 0xFF).toUInt8) = setCompact nbits.toNat := by
    intro start sizeEq
    have empty : 256 ^ (32 - (start + 0)) ∣ value emptyArray := by
      rw [show value emptyArray = 0 from value_replicate_zero]
      exact dvd_zero _
    rcases value_assignByte emptyArray (start + 0) ((nbits >>> 16) &&& 0x7F).toUInt8 empty with
      ⟨first, zero1⟩
    rcases value_assignByte _ (start + 1) ((nbits >>> 8) &&& 0xFF).toUInt8 zero1 with
      ⟨second, zero2⟩
    rcases value_assignByte _ (start + 2) (nbits &&& 0xFF).toUInt8 zero2 with ⟨third, _⟩
    have zero : value emptyArray = 0 := value_replicate_zero
    rw [third, second, first, high, middle, low, zero]
    have word : nbits.toNat % 2 ^ 23 = nbits.toNat / 2 ^ 16 % 2 ^ 7 * 2 ^ 16 +
        nbits.toNat / 2 ^ 8 % 2 ^ 8 * 2 ^ 8 + nbits.toNat % 2 ^ 8 := by omega
    simp only [setCompact]
    by_cases small : nbits.toNat / 2 ^ 24 ≤ 3
    · rw [if_pos small]
      have cases : start = 32 ∨ start = 31 ∨ start = 30 ∨ start = 29 := by omega
      rcases cases with rfl | rfl | rfl | rfl
      · have sizeIs : nbits.toNat / 2 ^ 24 = 0 := by omega
        rw [sizeIs]
        norm_num
        omega
      · have sizeIs : nbits.toNat / 2 ^ 24 = 1 := by omega
        rw [sizeIs]
        norm_num
        omega
      · have sizeIs : nbits.toNat / 2 ^ 24 = 2 := by omega
        rw [sizeIs]
        norm_num
        omega
      · have sizeIs : nbits.toNat / 2 ^ 24 = 3 := by omega
        rw [sizeIs]
        norm_num
        omega
    · rw [if_neg small, if_pos (by omega), if_pos (by omega), if_pos (by omega), word]
      have first : 31 - (start + 0) = nbits.toNat / 2 ^ 24 - 3 + 2 := by omega
      have second : 31 - (start + 1) = nbits.toNat / 2 ^ 24 - 3 + 1 := by omega
      have third : 31 - (start + 2) = nbits.toNat / 2 ^ 24 - 3 := by omega
      rw [first, second, third]
      ring
  have unfolded : nbitsToTarget nbits = (do
      let start ← sub32 32 ((nbits >>> 24) &&& 0xFF)
      .ok (assignByte (assignByte (assignByte emptyArray (start.toNat + 0)
        ((nbits >>> 16) &&& 0x7F).toUInt8) (start.toNat + 1) ((nbits >>> 8) &&& 0xFF).toUInt8)
        (start.toNat + 2) (nbits &&& 0xFF).toUInt8)) := rfl
  rw [unfolded, bind_eq_ok_iff]
  simp only [sub32_eq_ok_iff, size, wide, Except.ok.injEq]
  constructor
  · rintro ⟨start, startEq, rfl⟩
    exact ⟨by omega, decoded start.toNat (by omega)⟩
  · rintro ⟨upTo, valueEq⟩
    have startEq : (UInt32.ofNat (32 - nbits.toNat / 2 ^ 24)).toNat = 32 - nbits.toNat / 2 ^ 24 :=
      UInt32.toNat_ofNat_of_lt' (by simp only [UInt32.size]; omega)
    refine ⟨UInt32.ofNat (32 - nbits.toNat / 2 ^ 24), by omega, ?_⟩
    apply value_injective
    rw [valueEq]
    exact decoded _ (by omega)

theorem exists_nbitsToTarget {nbits : UInt32} (size : nbits.toNat / 2 ^ 24 ≤ 32) :
    ∃ target, nbitsToTarget nbits = .ok target := by
  refine ⟨ofNat 32 (setCompact nbits.toNat), nbitsToTarget_eq_ok_iff.mpr ⟨size, ?_⟩⟩
  rw [value_ofNat]
  exact Nat.mod_eq_of_lt (setCompact_lt size)

end Decode

section Encode

theorem mul_pow_or {low bits : ℕ} (bound : low < 2 ^ bits) (high : ℕ) :
    high * 2 ^ bits ||| low = high * 2 ^ bits + low := by
  rw [← Nat.shiftLeft_eq, Nat.shiftLeft_add_eq_or_of_lt bound]

theorem toNat_word (first second third : UInt8) :
    (((0 ||| first.toUInt32 <<< UInt32.ofNat ((2 - 0) * 8)) |||
      second.toUInt32 <<< UInt32.ofNat ((2 - 1) * 8)) |||
      third.toUInt32 <<< UInt32.ofNat ((2 - 2) * 8) : UInt32).toNat =
    first.toNat * 2 ^ 16 + second.toNat * 2 ^ 8 + third.toNat := by
  have firstBound := first.toNat_lt
  have secondBound := second.toNat_lt
  have thirdBound := third.toNat_lt
  have shifts : (UInt32.ofNat ((2 - 0) * 8)).toNat % 32 = 16 ∧
      (UInt32.ofNat ((2 - 1) * 8)).toNat % 32 = 8 ∧
      (UInt32.ofNat ((2 - 2) * 8)).toNat % 32 = 0 := ⟨rfl, rfl, rfl⟩
  rcases shifts with ⟨shift16, shift8, shift0⟩
  simp only [UInt32.toNat_or, UInt32.toNat_shiftLeft, UInt8.toNat_toUInt32, shift16, shift8,
    shift0, UInt32.toNat_zero, Nat.zero_or, Nat.shiftLeft_eq]
  have joined : first.toNat * 2 ^ 16 + second.toNat * 2 ^ 8 =
      (first.toNat * 2 ^ 8 + second.toNat) * 2 ^ 8 := by ring
  rw [Nat.mod_eq_of_lt (by omega), Nat.mod_eq_of_lt (by omega), Nat.mod_eq_of_lt (by omega),
    Nat.pow_zero, Nat.mul_one, mul_pow_or (by omega) first.toNat, joined, mul_pow_or thirdBound]

def byteAt (target : Bytes32) (position : ℕ) : UInt8 :=
  if inRange : position < 32 then target.get ⟨position, inRange⟩ else 0

theorem byteAt_toNat (target : Bytes32) (position : ℕ) : (byteAt target position).toNat =
    if position < 32 then value target / 256 ^ (31 - position) % 256 else 0 := by
  rw [byteAt]
  split
  · rw [get_toNat]
  · rfl

theorem leadingWord_eq {target : Bytes32} {size : ℕ} (upTo : size ≤ 32)
    (bound : value target < 256 ^ size) :
    (byteAt target (32 - size + 0)).toNat * 2 ^ 16 + (byteAt target (32 - size + 1)).toNat * 2 ^ 8 +
      (byteAt target (32 - size + 2)).toNat =
    if size ≤ 3 then value target * 256 ^ (3 - size) else value target / 256 ^ (size - 3) := by
  simp only [byteAt_toNat]
  by_cases small : size ≤ 3
  · rw [if_pos small]
    have cases : size = 0 ∨ size = 1 ∨ size = 2 ∨ size = 3 := by omega
    rcases cases with rfl | rfl | rfl | rfl
    · norm_num at bound ⊢
      omega
    · norm_num at bound ⊢
      omega
    · norm_num at bound ⊢
      omega
    · norm_num at bound ⊢
      omega
  · rw [if_neg small, if_pos (by omega), if_pos (by omega), if_pos (by omega)]
    obtain ⟨word, wordEq⟩ : ∃ word, word = value target / 256 ^ (size - 3) := ⟨_, rfl⟩
    have wordBound : word < 256 ^ 3 := by
      rw [wordEq, Nat.div_lt_iff_lt_mul (by positivity), ← Nat.pow_add]
      have : 3 + (size - 3) = size := by omega
      rw [this]
      exact bound
    have first : value target / 256 ^ (31 - (32 - size + 0)) = word / 256 ^ 2 := by
      rw [wordEq, Nat.div_div_eq_div_mul, ← Nat.pow_add]
      congr 2
      omega
    have second : value target / 256 ^ (31 - (32 - size + 1)) = word / 256 := by
      rw [wordEq, Nat.div_div_eq_div_mul, ← Nat.pow_succ]
      congr 2
      omega
    have third : value target / 256 ^ (31 - (32 - size + 2)) = word := by
      rw [wordEq]
      congr 2
      omega
    rw [first, second, third, ← wordEq]
    omega

theorem leadingByte_spec (target : Bytes32) :
    (∃ i, leadingByte target = some i ∧ i < 32 ∧ byteLength (value target) = 32 - i ∧
      0 < value target) ∨ leadingByte target = none ∧ value target = 0 := by
  cases found : leadingByte target with
  | none => exact Or.inr ⟨rfl, value_of_findIdx?_eq_none found⟩
  | some i =>
      rcases value_of_findIdx? found with ⟨inRange, lower, upper⟩
      have size : 32 - i = 32 - 1 - i + 1 := by omega
      rw [size] at upper
      refine Or.inl ⟨i, rfl, inRange, ?_, ?_⟩
      · rw [byteLength_eq lower upper, size]
      · exact lt_of_lt_of_le (Nat.pow_pos (by decide)) lower

/-- The size that `targetToNbits` starts from. -/
theorem toNat_size (target : Bytes32) :
    (match leadingByte target with
      | some i => UInt32.ofNat (32 - i)
      | none => 0 : UInt32).toNat = byteLength (value target) ∧ byteLength (value target) ≤ 32 := by
  rcases leadingByte_spec target with ⟨i, found, inRange, length, _⟩ | ⟨none, zero⟩
  · have exact : (UInt32.ofNat (32 - i)).toNat = 32 - i :=
      UInt32.toNat_ofNat_of_lt' (by simp only [UInt32.size]; omega)
    simp only [found, length, exact, true_and]
    omega
  · simp only [none, zero, byteLength_zero]
    exact ⟨rfl, by decide⟩

/-- The loop of `targetToNbits` collects the leading three bytes. -/
theorem toNat_leadingWord (target : Bytes32) {size : ℕ} (upTo : size ≤ 32)
    (bound : value target < 256 ^ size) :
    ((List.range 3).foldl (fun nCompact i =>
      let pos := 32 - size + i
      if inRange : pos < 32 then
        nCompact ||| (target.get ⟨pos, inRange⟩).toUInt32 <<< UInt32.ofNat ((2 - i) * 8)
      else nCompact) (0 : UInt32)).toNat =
      if size ≤ 3 then value target * 256 ^ (3 - size) else value target / 256 ^ (size - 3) := by
  have step : ∀ (acc : UInt32) (i : ℕ),
      (if inRange : 32 - size + i < 32 then
        acc ||| (target.get ⟨32 - size + i, inRange⟩).toUInt32 <<< UInt32.ofNat ((2 - i) * 8)
      else acc) =
      acc ||| (byteAt target (32 - size + i)).toUInt32 <<< UInt32.ofNat ((2 - i) * 8) := by
    intro acc i
    rw [byteAt]
    split
    · rfl
    · simp
  have three : List.range 3 = [0, 1, 2] := rfl
  simp only [step, three, List.foldl_cons, List.foldl_nil]
  rw [toNat_word, leadingWord_eq upTo bound]

/-- The last part of `targetToNbits`, which moves a word with its sign bit set. -/
theorem toNat_assemble {word size : UInt32} (wordBound : word.toNat < 2 ^ 24)
    (sizeBound : size.toNat ≤ 32) :
    ((let (nCompact, nSize) : UInt32 × UInt32 :=
        if word &&& 0x00800000 > 0 then (word >>> 8, size + 1) else (word, size)
      (nCompact &&& (0x00FFFFFF : UInt32)) ||| ((nSize <<< 24) &&& (0xFF000000 : UInt32)))).toNat =
      if word.toNat < 2 ^ 23 then size.toNat * 2 ^ 24 + word.toNat
      else (size.toNat + 1) * 2 ^ 24 + word.toNat / 256 := by
  have join : ∀ low high : UInt32, low.toNat < 2 ^ 24 → high.toNat < 2 ^ 8 →
      ((low &&& (0x00FFFFFF : UInt32)) ||| ((high <<< 24) &&& (0xFF000000 : UInt32))).toNat =
        high.toNat * 2 ^ 24 + low.toNat := by
    intro low high lowBound highBound
    have lowMask : (0x00FFFFFF : UInt32).toNat = 2 ^ 24 - 1 := rfl
    have highMask : (0xFF000000 : UInt32).toNat = (2 ^ 8 - 1) <<< 24 := rfl
    have shift : (24 : UInt32).toNat % 32 = 24 := rfl
    simp only [UInt32.toNat_or, UInt32.toNat_and, UInt32.toNat_shiftLeft, lowMask, highMask, shift]
    have fits : high.toNat <<< 24 % 2 ^ 32 = high.toNat <<< 24 := by
      rw [Nat.shiftLeft_eq]
      omega
    rw [fits, ← Nat.shiftLeft_and_distrib, Nat.and_two_pow_sub_one_eq_mod,
      Nat.and_two_pow_sub_one_eq_mod, Nat.mod_eq_of_lt lowBound, Nat.mod_eq_of_lt highBound,
      Nat.lor_comm, Nat.shiftLeft_eq, mul_pow_or lowBound]
  have sign : (word &&& 0x00800000 > 0) ↔ ¬word.toNat < 2 ^ 23 := by
    have mask : (0x00800000 : UInt32).toNat = 2 ^ 23 := rfl
    rw [gt_iff_lt, UInt32.lt_iff_toNat_lt, UInt32.toNat_and, mask, UInt32.toNat_zero,
      Nat.and_two_pow, Nat.testBit_eq_decide_div_mod_eq]
    by_cases small : word.toNat < 2 ^ 23
    · have bit : ¬word.toNat / 2 ^ 23 % 2 = 1 := by omega
      rw [decide_eq_false bit]
      exact iff_of_false (by decide) (fun large => large small)
    · have bit : word.toNat / 2 ^ 23 % 2 = 1 := by omega
      rw [decide_eq_true bit]
      exact iff_of_true (by decide) small
  have one : (1 : UInt32).toNat = 1 := rfl
  by_cases small : word.toNat < 2 ^ 23
  · rw [if_neg (fun bit => sign.mp bit small), if_pos small]
    exact join word size wordBound (by omega)
  · have shift : (8 : UInt32).toNat % 32 = 8 := rfl
    have moved : (word >>> 8).toNat = word.toNat / 256 := by
      rw [UInt32.toNat_shiftRight, shift, Nat.shiftRight_eq_div_pow]
    have next : (size + 1).toNat = size.toNat + 1 := by
      rw [UInt32.toNat_add, one]
      omega
    rw [if_pos (sign.mpr small), if_neg small, ← next, ← moved]
    exact join (word >>> 8) (size + 1) (by rw [moved]; omega) (by rw [next]; omega)

theorem targetToNbits_toNat (target : Bytes32) :
    (targetToNbits target).toNat = getCompact (value target) := by
  rcases toNat_size target with ⟨size, upTo⟩
  have word := toNat_leadingWord target upTo (lt_byteLength (value target))
  have wordBound := leadingWord_lt (value target)
  rw [leadingWord, ← word] at wordBound
  rw [← size] at upTo word wordBound
  apply (toNat_assemble wordBound upTo).trans
  rw [word, size]
  rfl

end Encode

section Difficulty

theorem value_MAX_DIFFICULTY : value MAX_DIFFICULTY = maxDifficulty := by decide

theorem value_UNROUNDED_MAX_TARGET : value UNROUNDED_MAX_TARGET = powLimit := by decide

/-- The loop of `getDifficulty` reads the leading three bytes. -/
theorem foldlM_leadingWord (target : Bytes32) {start : ℕ} (inRange : start ≤ 29) :
    ∃ num, (List.range 3).foldlM (fun num i => do
      let byte ← index target (start + i)
      .ok (num ||| byte.toUInt32 <<< UInt32.ofNat ((2 - i) * 8))) (0 : UInt32) = .ok num ∧
      num.toNat = (byteAt target (start + 0)).toNat * 2 ^ 16 +
        (byteAt target (start + 1)).toNat * 2 ^ 8 + (byteAt target (start + 2)).toNat := by
  have read : ∀ i < 3, index target (start + i) = .ok (byteAt target (start + i)) := by
    intro i bound
    have fits : start + i < 32 := by omega
    rw [index_of_lt target fits, byteAt, dif_pos fits]
  have three : List.range 3 = [0, 1, 2] := rfl
  simp only [three, List.foldlM_cons, List.foldlM_nil, read 0 (by decide), read 1 (by decide),
    read 2 (by decide), ok_bind, pure_eq_ok, Except.ok.injEq, exists_eq_left']
  exact toNat_word _ _ _

def lowBytes (target : ℕ) : ℕ := 256 ^ (byteLength target - 3)

theorem lowBytes_le {target : ℕ} (atLeast : 2 ^ 16 ≤ target) : lowBytes target ≤ target := by
  have positive : target ≠ 0 := by omega
  rw [lowBytes, byteLength, if_neg positive]
  apply le_trans _ (Nat.pow_log_le_self 256 positive)
  exact Nat.pow_le_pow_right (by decide) (by omega)

theorem getDifficulty_of_le {target : Bytes32} (atLeast : 2 ^ 16 ≤ value target) :
    ∃ difficulty, getDifficulty target = .ok difficulty ∧ value difficulty =
      maxDifficulty / (value target / lowBytes (value target)) / lowBytes (value target) := by
  rcases leadingByte_spec target with ⟨start, found, inRange, length, positive⟩ | ⟨_, zero⟩
  · have bound := lt_byteLength (value target)
    rw [length] at bound
    have three : start ≤ 29 := by
      by_contra short
      have upper : 256 ^ (32 - start) ≤ 256 ^ 2 := Nat.pow_le_pow_right (by decide) (by omega)
      omega
    rcases foldlM_leadingWord target three with ⟨num, read, numEq⟩
    have word := leadingWord_eq (by omega) bound
    have same : 32 - (32 - start) = start := by omega
    rw [same, ← numEq] at word
    have low : lowBytes (value target) = 256 ^ (29 - start) := by
      rw [lowBytes, length]
      congr 1
      omega
    have numIs : num.toNat = value target / lowBytes (value target) := by
      rw [word, low]
      split
      · have exact : 3 - (32 - start) = 0 ∧ 29 - start = 0 := by omega
        rw [exact.1, exact.2, Nat.pow_zero, Nat.mul_one, Nat.div_one]
      · congr 2
        omega
    have numPositive : 0 < num.toNat := by
      rw [numIs]
      exact Nat.div_pos (lowBytes_le atLeast) (Nat.pow_pos (by decide))
    have shift : subUsize (32 - start) 3 = .ok (29 - start) := by
      apply subUsize_eq_ok_iff.mpr
      omega
    have small : maxDifficulty / num.toNat < 256 ^ 32 :=
      lt_of_le_of_lt (Nat.div_le_self _ _) (by decide)
    simp only [getDifficulty, found, Option.getD_some, shift, ok_bind, read,
      divInPlace_eq _ numPositive, Except.ok.injEq, exists_eq_left']
    rw [value_shiftRight, value_ofNat, value_MAX_DIFFICULTY, Nat.mod_eq_of_lt small, numIs, ← low]
  · omega

theorem getDifficulty_of_lt {target : Bytes32} (below : value target < 2 ^ 16) :
    getDifficulty target = abort := by
  rcases leadingByte_spec target with ⟨start, found, inRange, length, positive⟩ | ⟨none, zero⟩
  · have late : ¬3 ≤ 32 - start := by
      intro early
      have log := Nat.pow_log_le_self 256 (Nat.ne_of_gt positive)
      rw [byteLength, if_neg (Nat.ne_of_gt positive)] at length
      have lower : 256 ^ 2 ≤ 256 ^ Nat.log 256 (value target) :=
        Nat.pow_le_pow_right (by decide) (by omega)
      omega
    simp only [getDifficulty, found, Option.getD_some, subUsize, if_neg late]
    rfl
  · rcases foldlM_leadingWord target (Nat.zero_le 29) with ⟨num, read, numEq⟩
    have word := leadingWord_eq (le_refl 32) (value_lt target)
    rw [Nat.sub_self, ← numEq, zero, Nat.zero_div] at word
    simp only [getDifficulty, none, Option.getD_none, subUsize, Nat.sub_zero, ok_bind, read,
      divInPlace_zero MAX_DIFFICULTY word]
    rfl

/-- The difficulty of a decoded target is Bitcoin's, for targets of at least three bytes. -/
theorem getDifficulty_eq_ok_iff {nbits : UInt32} {target difficulty : Bytes32}
    (decoded : nbitsToTarget nbits = .ok target) :
    getDifficulty target = .ok difficulty ↔ 2 ^ 16 ≤ setCompact nbits.toNat ∧
      value difficulty = Bitcoin.difficulty (setCompact nbits.toNat) := by
  have valueEq := (nbitsToTarget_eq_ok_iff.mp decoded).2
  rw [← valueEq]
  by_cases atLeast : 2 ^ 16 ≤ value target
  · rcases getDifficulty_of_le atLeast with ⟨computed, run, computedEq⟩
    have exact : lowBytes (value target) ∣ value target := by
      rw [valueEq]
      exact setCompact_dvd nbits.toNat
    rw [Nat.div_div_eq_div_mul, Nat.div_mul_cancel exact] at computedEq
    rw [run, Except.ok.injEq, ← value_inj, computedEq, Bitcoin.difficulty]
    constructor
    · intro same
      exact ⟨atLeast, same.symm⟩
    · rintro ⟨_, same⟩
      exact same.symm
  · rw [getDifficulty_of_lt (not_le.mp atLeast)]
    constructor
    · intro aborted
      exact absurd aborted abort_ne_ok
    · rintro ⟨reached, _⟩
      exact absurd reached atLeast

/-- Dividing by the leading bytes and moving the quotient is the exact division, on decoded
targets, so that a smaller target never has a smaller difficulty. -/
theorem getDifficulty_of_decoded {nbits : UInt32} {target : Bytes32}
    (decoded : nbitsToTarget nbits = .ok target) (atLeast : 2 ^ 16 ≤ value target) :
    ∃ difficulty, getDifficulty target = .ok difficulty ∧
      value difficulty = value MAX_DIFFICULTY / value target ∧
      ∀ (largerNbits : UInt32) (larger : Bytes32), nbitsToTarget largerNbits = .ok larger →
        value target ≤ value larger →
        ∃ lower, getDifficulty larger = .ok lower ∧ value lower ≤ value difficulty := by
  have exact : ∀ {nbits : UInt32} {target : Bytes32}, nbitsToTarget nbits = .ok target →
      2 ^ 16 ≤ value target → ∃ difficulty, getDifficulty target = .ok difficulty ∧
        value difficulty = value MAX_DIFFICULTY / value target := by
    intro nbits target decoded atLeast
    have valueEq := (nbitsToTarget_eq_ok_iff.mp decoded).2
    rcases getDifficulty_of_le atLeast with ⟨difficulty, run, _⟩
    refine ⟨difficulty, run, ?_⟩
    rw [((getDifficulty_eq_ok_iff decoded).mp run).2, Bitcoin.difficulty, valueEq,
      value_MAX_DIFFICULTY]
  rcases exact decoded atLeast with ⟨difficulty, run, valueEq⟩
  refine ⟨difficulty, run, valueEq, ?_⟩
  intro largerNbits larger decodedLarger ordered
  rcases exact decodedLarger (le_trans atLeast ordered) with ⟨lower, runLower, lowerEq⟩
  refine ⟨lower, runLower, ?_⟩
  rw [valueEq, lowerEq]
  exact Nat.div_le_div_left ordered (by omega)

/-- The target of the first block. -/
theorem getDifficulty_of_decoded_first : ∃ target difficulty,
    nbitsToTarget 0x1D00FFFF = .ok target ∧ getDifficulty target = .ok difficulty ∧
      value difficulty = value MAX_DIFFICULTY / value target := by
  have decoded : nbitsToTarget 0x1D00FFFF = .ok MAX_DIFFICULTY := by decide
  have atLeast : 2 ^ 16 ≤ value MAX_DIFFICULTY := by
    rw [value_MAX_DIFFICULTY]
    decide
  rcases getDifficulty_of_decoded decoded atLeast with ⟨difficulty, run, valueEq, _⟩
  exact ⟨MAX_DIFFICULTY, difficulty, decoded, run, valueEq⟩

end Difficulty

section Retarget

theorem toNat_clamp {timeSpan : UInt32} {timespan : ℤ} (same : (timeSpan.toNat : ℤ) = timespan) :
    (let timeSpan := if timeSpan < TARGET_TIMESPAN_DIV_4 then TARGET_TIMESPAN_DIV_4 else timeSpan
      if timeSpan > TARGET_TIMESPAN_MUL_4 then TARGET_TIMESPAN_MUL_4 else timeSpan).toNat =
      clampTimespan timespan := by
  have low : TARGET_TIMESPAN_DIV_4.toNat = 302400 := rfl
  have high : TARGET_TIMESPAN_MUL_4.toNat = 4838400 := rfl
  have limits : clampTimespan timespan = max 302400 (min 4838400 timeSpan.toNat) := by
    simp only [clampTimespan, targetTimespan]
    omega
  simp only [limits, gt_iff_lt, UInt32.lt_iff_toNat_lt, low, high]
  by_cases short : timeSpan.toNat < 302400
  · rw [if_pos short, low, if_neg (by omega), low]
    omega
  · rw [if_neg short]
    split
    · rw [high]
      omega
    · omega

/-- The part of `computeNewNbits` after the duration has been limited. -/
theorem rescale_eq_ok_iff {prevTarget : Bytes32} {timeSpan nbits : UInt32} :
    (do
      let prevTarget ← mulInPlace prevTarget timeSpan
      let prevTarget ← divInPlace prevTarget TARGET_TIMESPAN
      if gtArr prevTarget UNROUNDED_MAX_TARGET then .ok (targetToNbits UNROUNDED_MAX_TARGET)
      else .ok (targetToNbits prevTarget) : Exec UInt32) = .ok nbits ↔
    nbits.toNat = getCompact
      (min (value prevTarget * timeSpan.toNat % 2 ^ 256 / targetTimespan) powLimit) := by
  have timespan : TARGET_TIMESPAN.toNat = targetTimespan := rfl
  have positive : 0 < TARGET_TIMESPAN.toNat := by decide
  have words : (256 ^ 32 : ℕ) = 2 ^ 256 := by norm_num
  obtain ⟨target, targetEq⟩ : ∃ target,
      target = value prevTarget * timeSpan.toNat % 2 ^ 256 / targetTimespan := ⟨_, rfl⟩
  have bound : target < 2 ^ 256 := by
    rw [targetEq]
    exact lt_of_le_of_lt (Nat.div_le_self _ _) (Nat.mod_lt _ (by decide))
  have valueEq : value (ofNat 32 target) = target := by
    rw [value_ofNat, words, Nat.mod_eq_of_lt bound]
  simp only [mulInPlace_eq, ok_bind, divInPlace_eq _ positive, value_ofNat, timespan, words,
    ← targetEq, gtArr_iff, Nat.mod_eq_of_lt bound, value_UNROUNDED_MAX_TARGET]
  split
  · rename_i above
    rw [Except.ok.injEq, ← UInt32.toNat_inj, targetToNbits_toNat, value_UNROUNDED_MAX_TARGET,
      min_eq_right (le_of_lt above)]
    exact eq_comm
  · rename_i below
    rw [Except.ok.injEq, ← UInt32.toNat_inj, targetToNbits_toNat, valueEq,
      min_eq_left (not_lt.mp below)]
    exact eq_comm

/-- Retargeting is Bitcoin's rule, and aborts when the period runs backwards. -/
theorem computeNewNbits_eq_ok_iff {prevTime startTime nbits : UInt32} {prevTarget : Bytes32} :
    computeNewNbits prevTime startTime prevTarget = .ok nbits ↔
      startTime.toNat ≤ prevTime.toNat ∧ nbits.toNat = nextWorkRequired (value prevTarget)
        ((prevTime.toNat : ℤ) - startTime.toNat) := by
  have after : ∀ timeSpan : UInt32, timeSpan.toNat + startTime.toNat = prevTime.toNat →
      ((do
        let timeSpan := if timeSpan < TARGET_TIMESPAN_DIV_4 then TARGET_TIMESPAN_DIV_4 else timeSpan
        let timeSpan := if timeSpan > TARGET_TIMESPAN_MUL_4 then TARGET_TIMESPAN_MUL_4 else timeSpan
        let prevTarget ← mulInPlace prevTarget timeSpan
        let prevTarget ← divInPlace prevTarget TARGET_TIMESPAN
        if gtArr prevTarget UNROUNDED_MAX_TARGET then .ok (targetToNbits UNROUNDED_MAX_TARGET)
        else .ok (targetToNbits prevTarget) : Exec UInt32) = .ok nbits ↔
      nbits.toNat = nextWorkRequired (value prevTarget)
        ((prevTime.toNat : ℤ) - startTime.toNat)) := by
    intro timeSpan difference
    have same : (timeSpan.toNat : ℤ) = (prevTime.toNat : ℤ) - startTime.toNat := by omega
    rw [nextWorkRequired, ← toNat_clamp same]
    exact rescale_eq_ok_iff
  rw [computeNewNbits, bind_eq_ok_iff]
  simp only [sub32_eq_ok_iff]
  constructor
  · rintro ⟨timeSpan, difference, computed⟩
    exact ⟨by omega, (after timeSpan difference).mp computed⟩
  · rintro ⟨ordered, required⟩
    have bound := prevTime.toNat_lt
    have difference : (UInt32.ofNat (prevTime.toNat - startTime.toNat)).toNat =
        prevTime.toNat - startTime.toNat :=
      UInt32.toNat_ofNat_of_lt' (by simp only [UInt32.size]; omega)
    have sum : (UInt32.ofNat (prevTime.toNat - startTime.toNat)).toNat + startTime.toNat =
        prevTime.toNat := by omega
    exact ⟨_, sum, (after _ sum).mpr required⟩

/-- For a target that is no easier than the limit, decoded or not, the product of the target and
the duration fits in 256 bits, and retargeting is the formula on unbounded numbers. -/
theorem computeNewNbits_of_le {prevTime startTime : UInt32} {prevTarget : Bytes32}
    (limited : value prevTarget ≤ value UNROUNDED_MAX_TARGET) (ordered : startTime ≤ prevTime) :
    ∃ (timeSpan nbits : UInt32) (product : Bytes32),
      timeSpan.toNat = max 302400 (min 4838400 (prevTime.toNat - startTime.toNat)) ∧
      mulInPlace prevTarget timeSpan = .ok product ∧
      value product = value prevTarget * timeSpan.toNat ∧
      computeNewNbits prevTime startTime prevTarget = .ok nbits ∧
      nbits.toNat = getCompact
        (min (value prevTarget * timeSpan.toNat / 1209600) (value UNROUNDED_MAX_TARGET)) := by
  have times := UInt32.le_iff_toNat_le.mp ordered
  obtain ⟨span, spanEq⟩ : ∃ span,
      span = max 302400 (min 4838400 (prevTime.toNat - startTime.toNat)) := ⟨_, rfl⟩
  have spanBound : span ≤ 4838400 := by omega
  have timeSpanEq : (UInt32.ofNat span).toNat = span :=
    UInt32.toNat_ofNat_of_lt' (by simp only [UInt32.size]; omega)
  have clamped : clampTimespan ((prevTime.toNat : ℤ) - startTime.toNat) = span := by
    simp only [clampTimespan, targetTimespan]
    omega
  rw [value_UNROUNDED_MAX_TARGET] at limited ⊢
  have fits : value prevTarget * span < 2 ^ 256 :=
    calc value prevTarget * span ≤ powLimit * 4838400 := Nat.mul_le_mul limited spanBound
      _ < 2 ^ 256 := by decide
  have words : (256 ^ 32 : ℕ) = 2 ^ 256 := by norm_num
  obtain ⟨nbits, nbitsEq⟩ : ∃ nbits : UInt32, nbits.toNat =
      nextWorkRequired (value prevTarget) ((prevTime.toNat : ℤ) - startTime.toNat) := by
    obtain ⟨target, targetEq⟩ : ∃ target,
        target = min (value prevTarget * span % 2 ^ 256 / targetTimespan) powLimit := ⟨_, rfl⟩
    have bound : target < 256 ^ 32 := by
      rw [targetEq]
      exact lt_of_le_of_lt (min_le_right _ _) (by decide)
    refine ⟨targetToNbits (ofNat 32 target), ?_⟩
    rw [nextWorkRequired, clamped, ← targetEq, targetToNbits_toNat, value_ofNat,
      Nat.mod_eq_of_lt bound]
  refine ⟨UInt32.ofNat span, nbits, _, ?_, mulInPlace_eq prevTarget _, ?_, ?_, ?_⟩
  · rw [timeSpanEq, spanEq]
  · rw [timeSpanEq, value_ofNat, words, Nat.mod_eq_of_lt fits]
  · exact computeNewNbits_eq_ok_iff.mpr ⟨times, nbitsEq⟩
  · rw [nbitsEq, nextWorkRequired, clamped, Nat.mod_eq_of_lt fits, timeSpanEq]
    rfl

/-- A period of three weeks at the first block's target leads beyond the limit, and back to it. -/
theorem computeNewNbits_of_le_first : ∃ (timeSpan nbits : UInt32) (product : Bytes32),
    timeSpan.toNat = max 302400 (min 4838400 ((1814400 : UInt32).toNat - (0 : UInt32).toNat)) ∧
    mulInPlace MAX_DIFFICULTY timeSpan = .ok product ∧
    value product = value MAX_DIFFICULTY * timeSpan.toNat ∧
    computeNewNbits 1814400 0 MAX_DIFFICULTY = .ok nbits ∧
    nbits.toNat = getCompact
      (min (value MAX_DIFFICULTY * timeSpan.toNat / 1209600) (value UNROUNDED_MAX_TARGET)) := by
  apply computeNewNbits_of_le
  · rw [value_MAX_DIFFICULTY, value_UNROUNDED_MAX_TARGET]
    decide
  · decide

theorem shouldDiffAdjust_iff {height : UInt32} :
    shouldDiffAdjust height = true ↔ height.toNat % 2016 = 0 := by
  rw [shouldDiffAdjust, decide_eq_true_iff, ← UInt32.toNat_inj, UInt32.toNat_mod]
  rfl

/-- The target that a header must have on top of a committed one. -/
theorem hasCorrectDifficultyTarget_eq_ok_iff {parent : CommittedBlockHeader} {nbits : UInt32} :
    hasCorrectDifficultyTarget parent nbits = .ok true ↔
      parent.blockheight.toNat + 1 < 2 ^ 32 ∧
      nbits.toNat = requiredBits (parent.blockheight.toNat + 1) parent.header.nbits.toNat
        parent.header.timestamp.toNat parent.lastDiffAdjustment.toNat ∧
      ((parent.blockheight.toNat + 1) % 2016 = 0 →
        parent.lastDiffAdjustment.toNat ≤ parent.header.timestamp.toNat ∧
          parent.header.nbits.toNat / 2 ^ 24 ≤ 32) := by
  have one : UInt32.toNat 1 = 1 := rfl
  have required : ∀ height : UInt32, height.toNat = parent.blockheight.toNat + 1 →
      ((if shouldDiffAdjust height then do
          let prevTarget ← nbitsToTarget parent.header.nbits
          let newNbits ←
            computeNewNbits parent.header.timestamp parent.lastDiffAdjustment prevTarget
          .ok (nbits = newNbits)
        else .ok (nbits = parent.header.nbits) : Exec Bool) = .ok true ↔
      nbits.toNat = requiredBits (parent.blockheight.toNat + 1) parent.header.nbits.toNat
        parent.header.timestamp.toNat parent.lastDiffAdjustment.toNat ∧
      ((parent.blockheight.toNat + 1) % 2016 = 0 →
        parent.lastDiffAdjustment.toNat ≤ parent.header.timestamp.toNat ∧
          parent.header.nbits.toNat / 2 ^ 24 ≤ 32)) := by
    intro height heightEq
    simp only [shouldDiffAdjust_iff, requiredBits, ← heightEq]
    by_cases boundary : height.toNat % 2016 = 0
    · simp only [boundary, if_true, true_implies, bind_eq_ok_iff, nbitsToTarget_eq_ok_iff,
        computeNewNbits_eq_ok_iff, Except.ok.injEq, decide_eq_true_iff]
      constructor
      · rintro ⟨target, ⟨size, valueEq⟩, newNbits, ⟨ordered, requiredEq⟩, rfl⟩
        rw [valueEq] at requiredEq
        exact ⟨requiredEq, ordered, size⟩
      · rintro ⟨requiredEq, ordered, size⟩
        rcases exists_nbitsToTarget size with ⟨target, decoded⟩
        have valueEq := (nbitsToTarget_eq_ok_iff.mp decoded).2
        rw [← valueEq] at requiredEq
        exact ⟨target, ⟨size, valueEq⟩, nbits, ⟨ordered, requiredEq⟩, rfl⟩
    · simp only [boundary, if_false, false_implies, and_true, Except.ok.injEq, decide_eq_true_iff,
        UInt32.toNat_inj]
  rw [hasCorrectDifficultyTarget, bind_eq_ok_iff]
  simp only [add32_eq_ok_iff, one]
  constructor
  · rintro ⟨height, heightEq, computed⟩
    have bound := height.toNat_lt
    exact ⟨by omega, (required height heightEq).mp computed⟩
  · rintro ⟨bound, conditions⟩
    have heightEq : (UInt32.ofNat (parent.blockheight.toNat + 1)).toNat =
        parent.blockheight.toNat + 1 :=
      UInt32.toNat_ofNat_of_lt' (by simp only [UInt32.size]; omega)
    exact ⟨_, heightEq, (required _ heightEq).mpr conditions⟩

end Retarget

end BtcRelay
