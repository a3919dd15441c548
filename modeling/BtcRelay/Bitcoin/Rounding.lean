import BtcRelay.Bitcoin.Targets
import Mathlib.Order.Bounds.Basic

/-!
# Compact targets round down

Encoding a target keeps its leading bytes, so that decoding the result clears the others.
The size in the encoding is the length of twice the target: it leaves room for the sign. This
file shows that the decoded encoding is the greatest number of the encoding's exponent up to
the target, that encoding it again changes nothing, and that rounding keeps the order of
targets. The byte-array functions of the program inherit this below `2 ^ 255`, where the size
fits in 32 bytes.
-/

namespace Bitcoin

/-- The length of a target, and one more when its leading byte has the sign bit set. -/
def encodedSize (target : ℕ) : ℕ :=
  if 0x80 ≤ target / 256 ^ (byteLength target - 1) then byteLength target + 1
  else byteLength target

/-- The number of low-order bytes that an encoding leaves out. -/
def droppedBytes (target : ℕ) : ℕ := encodedSize target - 3

/-- The word of an encoding of a given size. -/
def wordAt (size target : ℕ) : ℕ :=
  if size ≤ 3 then target * 256 ^ (3 - size) else target / 256 ^ (size - 3)

theorem pow_byteLength_le {target : ℕ} (positive : 0 < target) :
    256 ^ (byteLength target - 1) ≤ target := by
  rw [byteLength, if_neg (Nat.ne_of_gt positive), Nat.add_sub_cancel]
  exact Nat.pow_log_le_self 256 (Nat.ne_of_gt positive)

theorem byteLength_pos {target : ℕ} (positive : 0 < target) : 0 < byteLength target := by
  rw [byteLength, if_neg (Nat.ne_of_gt positive)]
  exact Nat.succ_pos _

theorem byteLength_mono {target larger : ℕ} (ordered : target ≤ larger) :
    byteLength target ≤ byteLength larger := by
  apply byteLength_le
  exact lt_of_le_of_lt ordered (lt_byteLength larger)

theorem encodedSize_eq (target : ℕ) : encodedSize target = byteLength (2 * target) := by
  rcases Nat.eq_zero_or_pos target with rfl | positive
  · rfl
  · obtain ⟨last, lastEq⟩ : ∃ last, byteLength target = last + 1 :=
      Nat.exists_eq_succ_of_ne_zero (Nat.ne_of_gt (byteLength_pos positive))
    have lower := pow_byteLength_le positive
    have upper := lt_byteLength target
    rw [lastEq, Nat.add_sub_cancel] at lower
    rw [lastEq] at upper
    have power : 256 ^ (last + 1) = 2 * (0x80 * 256 ^ last) := by
      rw [Nat.pow_succ]
      ring
    have zeros : 0 < 256 ^ last := Nat.pow_pos (by decide)
    simp only [encodedSize, lastEq, Nat.add_sub_cancel, Nat.le_div_iff_mul_le zeros]
    split
    · rename_i signed
      have next : 256 ^ (last + 1 + 1) = 256 * 256 ^ (last + 1) := by
        rw [Nat.pow_succ, Nat.mul_comm]
      apply (byteLength_eq _ _).symm
      · omega
      · omega
    · rename_i unsigned
      apply (byteLength_eq _ _).symm
      · omega
      · omega

theorem encodedSize_mono {target larger : ℕ} (ordered : target ≤ larger) :
    encodedSize target ≤ encodedSize larger := by
  rw [encodedSize_eq, encodedSize_eq]
  exact byteLength_mono (Nat.mul_le_mul_left 2 ordered)

theorem lt_encodedSize (target : ℕ) : 2 * target < 256 ^ encodedSize target := by
  rw [encodedSize_eq]
  exact lt_byteLength (2 * target)

theorem encodedSize_le {target bytes : ℕ} (bound : 2 * target < 256 ^ bytes) :
    encodedSize target ≤ bytes := by
  rw [encodedSize_eq]
  exact byteLength_le bound

/-- A size leaves room for the sign exactly if twice the target fits in it. -/
theorem wordAt_lt_iff {size target : ℕ} :
    wordAt size target < 2 ^ 23 ↔ 2 * target < 256 ^ size := by
  rw [wordAt]
  split
  · rename_i small
    have split : 256 ^ 3 = 256 ^ size * 256 ^ (3 - size) := by
      rw [← Nat.pow_add, Nat.add_sub_cancel' small]
    have positive : 0 < 256 ^ (3 - size) := Nat.pow_pos (by decide)
    have half : (256 ^ 3 : ℕ) = 2 * 2 ^ 23 := by norm_num
    have scaled : 2 * target < 256 ^ size ↔
        2 * target * 256 ^ (3 - size) < 256 ^ size * 256 ^ (3 - size) :=
      (Nat.mul_lt_mul_right positive).symm
    rw [scaled, ← split, half, Nat.mul_assoc]
    exact (Nat.mul_lt_mul_left (by decide)).symm
  · have split : 256 ^ size = 2 * (2 ^ 23 * 256 ^ (size - 3)) := by
      have half : (2 * 2 ^ 23 : ℕ) = 256 ^ 3 := by norm_num
      rw [← Nat.mul_assoc, half, ← Nat.pow_add]
      congr 1
      omega
    rw [Nat.div_lt_iff_lt_mul (Nat.pow_pos (by decide)), split]
    omega

theorem wordAt_succ (size target : ℕ) : wordAt size target / 256 = wordAt (size + 1) target := by
  by_cases small : size + 1 ≤ 3
  · have power : 256 ^ (3 - size) = 256 ^ (3 - (size + 1)) * 256 := by
      rw [← Nat.pow_succ]
      congr 1
      omega
    rw [wordAt, wordAt, if_pos (by omega), if_pos small, power, ← Nat.mul_assoc,
      Nat.mul_div_cancel _ (by decide)]
  · by_cases three : size = 3
    · subst three
      simp [wordAt]
    · have power : 256 ^ (size + 1 - 3) = 256 ^ (size - 3) * 256 := by
        rw [← Nat.pow_succ]
        congr 1
        omega
      rw [wordAt, wordAt, if_neg (by omega), if_neg small, power, Nat.div_div_eq_div_mul]

/-- An encoding has its size in the upper byte and the leading bytes below. -/
theorem getCompact_eq (target : ℕ) :
    getCompact target = encodedSize target * 2 ^ 24 + wordAt (encodedSize target) target := by
  have word : leadingWord target = wordAt (byteLength target) target := rfl
  simp only [getCompact, word, wordAt_lt_iff]
  by_cases room : 2 * target < 256 ^ byteLength target
  · have size : encodedSize target = byteLength target := by
      apply le_antisymm (encodedSize_le room)
      rw [encodedSize_eq]
      exact byteLength_mono (by omega)
    rw [if_pos room, size]
  · have size : encodedSize target = byteLength target + 1 := by
      rw [encodedSize]
      split
      · rfl
      · rename_i unsigned
        have fits := lt_encodedSize target
        rw [encodedSize, if_neg unsigned] at fits
        exact absurd fits room
    rw [if_neg room, size, wordAt_succ]

theorem getCompact_size_eq (target : ℕ) : getCompact target / 2 ^ 24 = encodedSize target := by
  have word := wordAt_lt_iff.mpr (lt_encodedSize target)
  rw [getCompact_eq]
  omega

/-- Decoding an encoding clears the bytes that the encoding leaves out. -/
theorem setCompact_getCompact (target : ℕ) : setCompact (getCompact target) =
    target / 256 ^ droppedBytes target * 256 ^ droppedBytes target := by
  have word := wordAt_lt_iff.mpr (lt_encodedSize target)
  have size := getCompact_size_eq target
  have low : getCompact target % 2 ^ 23 = wordAt (encodedSize target) target := by
    rw [getCompact_eq]
    omega
  simp only [setCompact, size, low, droppedBytes, wordAt]
  by_cases small : encodedSize target ≤ 3
  · rw [if_pos small, if_pos small, Nat.mul_div_cancel _ (Nat.pow_pos (by decide)),
      Nat.sub_eq_zero_of_le small, Nat.pow_zero, Nat.div_one, Nat.mul_one]
  · rw [if_neg small, if_neg small]

theorem setCompact_getCompact_le (target : ℕ) : setCompact (getCompact target) ≤ target := by
  rw [setCompact_getCompact]
  exact Nat.div_mul_le_self target _

theorem setCompact_getCompact_add_mod (target : ℕ) :
    setCompact (getCompact target) + target % 256 ^ droppedBytes target = target := by
  rw [setCompact_getCompact]
  exact Nat.div_add_mod' target _

/-- The decoded encoding is the greatest number of its exponent up to the target. -/
theorem isGreatest_setCompact_getCompact (target : ℕ) :
    IsGreatest {rounded | rounded ≤ target ∧
      ∃ mantissa < 2 ^ 23, rounded = mantissa * 256 ^ droppedBytes target}
      (setCompact (getCompact target)) := by
  refine ⟨⟨setCompact_getCompact_le target, ?_⟩, ?_⟩
  · refine ⟨_, ?_, setCompact_getCompact target⟩
    have room := lt_encodedSize target
    have power : 256 ^ encodedSize target ≤ 2 * (2 ^ 23 * 256 ^ droppedBytes target) := by
      have half : (2 * 2 ^ 23 : ℕ) = 256 ^ 3 := by norm_num
      rw [← Nat.mul_assoc, half, ← Nat.pow_add]
      apply Nat.pow_le_pow_right (by decide)
      simp only [droppedBytes]
      omega
    rw [Nat.div_lt_iff_lt_mul (Nat.pow_pos (by decide))]
    omega
  · rintro rounded ⟨upTo, mantissa, _, rfl⟩
    rw [setCompact_getCompact]
    apply Nat.mul_le_mul_right
    exact (Nat.le_div_iff_mul_le (Nat.pow_pos (by decide))).mpr upTo

/-- Rounding keeps the leading byte, and so the size. -/
theorem pow_le_setCompact_getCompact {target : ℕ} (positive : 0 < target) :
    256 ^ (encodedSize target - 1) ≤ 2 * setCompact (getCompact target) := by
  have lower : 256 ^ (encodedSize target - 1) ≤ 2 * target := by
    rw [encodedSize_eq]
    exact pow_byteLength_le (by omega)
  rw [setCompact_getCompact]
  by_cases small : encodedSize target ≤ 3
  · rw [droppedBytes, Nat.sub_eq_zero_of_le small, Nat.pow_zero, Nat.div_one, Nat.mul_one]
    exact lower
  · have power : 256 ^ (encodedSize target - 1) = 2 * (2 ^ 15 * 256 ^ droppedBytes target) := by
      have half : (2 * 2 ^ 15 : ℕ) = 256 ^ 2 := by norm_num
      rw [← Nat.mul_assoc, half, ← Nat.pow_add]
      congr 1
      simp only [droppedBytes]
      omega
    rw [power] at lower ⊢
    apply Nat.mul_le_mul_left
    apply Nat.mul_le_mul_right
    rw [Nat.le_div_iff_mul_le (Nat.pow_pos (by decide))]
    omega

theorem encodedSize_setCompact_getCompact (target : ℕ) :
    encodedSize (setCompact (getCompact target)) = encodedSize target := by
  rcases Nat.eq_zero_or_pos target with rfl | positive
  · rfl
  · apply le_antisymm (encodedSize_mono (setCompact_getCompact_le target))
    by_contra smaller
    have upper := lt_encodedSize (setCompact (getCompact target))
    have lower := pow_le_setCompact_getCompact positive
    have powers : 256 ^ encodedSize (setCompact (getCompact target)) ≤
        256 ^ (encodedSize target - 1) :=
      Nat.pow_le_pow_right (by decide) (by omega)
    omega

theorem getCompact_setCompact_getCompact (target : ℕ) :
    getCompact (setCompact (getCompact target)) = getCompact target := by
  have word : wordAt (encodedSize target) (setCompact (getCompact target)) =
      wordAt (encodedSize target) target := by
    rw [setCompact_getCompact]
    simp only [wordAt, droppedBytes]
    split
    · rename_i small
      rw [Nat.sub_eq_zero_of_le small, Nat.pow_zero, Nat.div_one, Nat.mul_one]
    · rw [Nat.mul_div_cancel _ (Nat.pow_pos (by decide))]
  rw [getCompact_eq (setCompact _), encodedSize_setCompact_getCompact, word]
  exact (getCompact_eq target).symm

theorem setCompact_getCompact_mono {target larger : ℕ} (ordered : target ≤ larger) :
    setCompact (getCompact target) ≤ setCompact (getCompact larger) := by
  rcases Nat.lt_or_eq_of_le (encodedSize_mono ordered) with shorter | same
  · -- the larger target keeps its leading byte, which is beyond the smaller one
    have rounded := setCompact_getCompact_le target
    have upper := lt_encodedSize target
    have powers : 256 ^ encodedSize target ≤ 256 ^ (encodedSize larger - 1) :=
      Nat.pow_le_pow_right (by decide) (by omega)
    rcases Nat.eq_zero_or_pos larger with rfl | positive
    · omega
    · have lower := pow_le_setCompact_getCompact positive
      omega
  · rw [setCompact_getCompact, setCompact_getCompact, droppedBytes, droppedBytes, same]
    apply Nat.mul_le_mul_right
    exact Nat.div_le_div_right ordered

end Bitcoin

namespace BtcRelay

open BigEndian Bitcoin

theorem nbitsToTarget_targetToNbits {target : Bytes32} (below : value target < 2 ^ 255) :
    ∃ decoded, nbitsToTarget (targetToNbits target) = .ok decoded ∧
      value decoded = setCompact (getCompact (value target)) := by
  have size : (targetToNbits target).toNat / 2 ^ 24 ≤ 32 := by
    rw [targetToNbits_toNat, getCompact_size_eq]
    apply encodedSize_le
    have words : (256 ^ 32 : ℕ) = 2 * 2 ^ 255 := by norm_num
    omega
  rcases exists_nbitsToTarget size with ⟨decoded, run⟩
  refine ⟨decoded, run, ?_⟩
  rw [(nbitsToTarget_eq_ok_iff.mp run).2, targetToNbits_toNat]

/-- Decoding an encoded target rounds it down, which encoding it again does not change and which
keeps the order of targets. -/
theorem targetToNbits_roundsDown {target : Bytes32} (below : value target < 2 ^ 255) :
    ∃ decoded, nbitsToTarget (targetToNbits target) = .ok decoded ∧
      value decoded ≤ value target ∧
      IsGreatest {rounded | rounded ≤ value target ∧ ∃ mantissa < 2 ^ 23,
        rounded = mantissa * 256 ^ (encodedSize (value target) - 3)} (value decoded) ∧
      value decoded + value target % 256 ^ (encodedSize (value target) - 3) = value target ∧
      targetToNbits decoded = targetToNbits target ∧
      ∀ larger : Bytes32, value larger < 2 ^ 255 → value target ≤ value larger →
        ∃ decodedLarger, nbitsToTarget (targetToNbits larger) = .ok decodedLarger ∧
          value decoded ≤ value decodedLarger := by
  rcases nbitsToTarget_targetToNbits below with ⟨decoded, run, valueEq⟩
  refine ⟨decoded, run, ?_, ?_, ?_, ?_, ?_⟩
  · rw [valueEq]
    exact setCompact_getCompact_le (value target)
  · rw [valueEq]
    exact isGreatest_setCompact_getCompact (value target)
  · rw [valueEq]
    exact setCompact_getCompact_add_mod (value target)
  · apply UInt32.toNat_inj.mp
    rw [targetToNbits_toNat, targetToNbits_toNat, valueEq, getCompact_setCompact_getCompact]
  · intro larger belowLarger ordered
    rcases nbitsToTarget_targetToNbits belowLarger with ⟨decodedLarger, runLarger, largerEq⟩
    refine ⟨decodedLarger, runLarger, ?_⟩
    rw [valueEq, largerEq]
    exact setCompact_getCompact_mono ordered

/-- The easiest target loses its low-order bytes. -/
theorem targetToNbits_roundsDown_limit : ∃ decoded,
    nbitsToTarget (targetToNbits UNROUNDED_MAX_TARGET) = .ok decoded ∧
      value decoded ≤ value UNROUNDED_MAX_TARGET ∧
      targetToNbits decoded = targetToNbits UNROUNDED_MAX_TARGET := by
  have below : value UNROUNDED_MAX_TARGET < 2 ^ 255 := by
    rw [value_UNROUNDED_MAX_TARGET]
    decide
  rcases targetToNbits_roundsDown below with ⟨decoded, run, rounded, _, _, stable, _⟩
  exact ⟨decoded, run, rounded, stable⟩

end BtcRelay
