import BtcRelay.Bitcoin.Rounding

/-!
# How far retargets go

A retarget makes the target at most four times as easy. Between two heights there is one
for each multiple of 2016 passed, so the target and with it the work of a block cannot drop
faster than by a factor of four for each.
-/

namespace Bitcoin

/-- The number of retargets from one height to another. -/
def retargets (start height : ℕ) : ℕ := height / 2016 - start / 2016

section

variable {target easier start height : ℕ}

theorem clampTimespan_le (timespan : ℤ) : clampTimespan timespan ≤ 4 * targetTimespan := by
  simp only [clampTimespan, targetTimespan]
  omega

theorem setCompact_nextWorkRequired_le (target : ℕ) (timespan : ℤ) :
    setCompact (nextWorkRequired target timespan) ≤ 4 * target := by
  have product : target * clampTimespan timespan ≤ target * 4 * targetTimespan := by
    rw [Nat.mul_assoc]
    exact Nat.mul_le_mul_left target (clampTimespan_le timespan)
  calc setCompact (nextWorkRequired target timespan)
      ≤ min (target * clampTimespan timespan % 2 ^ 256 / targetTimespan) powLimit :=
        setCompact_getCompact_le _
    _ ≤ target * clampTimespan timespan % 2 ^ 256 / targetTimespan := min_le_left _ _
    _ ≤ target * 4 * targetTimespan / targetTimespan :=
        Nat.div_le_div_right (le_trans (Nat.mod_le _ _) product)
    _ = 4 * target := by rw [Nat.mul_div_cancel _ (by decide), Nat.mul_comm]

theorem retargets_succ (upTo : start ≤ height) :
    retargets start (height + 1) =
      if (height + 1) % 2016 = 0 then retargets start height + 1 else retargets start height := by
  simp only [retargets]
  split <;> omega

/-- The target of a block is at most what one more retarget allows. -/
theorem setCompact_requiredBits_le {parentBits parentTime periodStart initial : ℕ}
    (upTo : start ≤ height)
    (bound : setCompact parentBits ≤ 4 ^ retargets start height * initial) :
    setCompact (requiredBits (height + 1) parentBits parentTime periodStart) ≤
      4 ^ retargets start (height + 1) * initial := by
  rw [retargets_succ upTo, requiredBits]
  split
  · apply le_trans (setCompact_nextWorkRequired_le _ _)
    rw [Nat.pow_succ, Nat.mul_comm (4 ^ _) 4, Nat.mul_assoc]
    exact Nat.mul_le_mul_left 4 bound
  · exact bound

theorem difficulty_anti (positive : 0 < target) (atMost : target ≤ easier) :
    difficulty easier ≤ difficulty target :=
  Nat.div_le_div_left atMost positive

/-- A target of three bytes or more has a difficulty far below `2 ^ 256`. -/
theorem difficulty_lt (atLeast : 2 ^ 16 ≤ target) : difficulty target < 2 ^ 208 := by
  have most : maxDifficulty < 2 ^ 208 * 2 ^ 16 := by decide
  rw [difficulty, Nat.div_lt_iff_lt_mul (by omega)]
  exact lt_of_lt_of_le most (Nat.mul_le_mul_left _ atLeast)

end

end Bitcoin
