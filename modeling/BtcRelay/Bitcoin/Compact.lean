import Mathlib.Data.Nat.Log
import Mathlib.Tactic.Ring

/-!
# Compact targets

Bitcoin's proof-of-work targets are 256-bit numbers that a header carries in a compact
encoding: a size in bytes and the leading three bytes. This file has the encoding and the
decoding as functions on natural numbers, the retarget rule of the main network, which
computes in 256-bit arithmetic, and the difficulty of a target.
-/

namespace Bitcoin

def byteLength (target : ℕ) : ℕ :=
  if target = 0 then 0 else Nat.log 256 target + 1

/-- The target of a compact encoding. -/
def setCompact (nbits : ℕ) : ℕ :=
  let size := nbits / 2 ^ 24
  let word := nbits % 2 ^ 23
  if size ≤ 3 then word / 256 ^ (3 - size) else word * 256 ^ (size - 3)

def leadingWord (target : ℕ) : ℕ :=
  if byteLength target ≤ 3 then target * 256 ^ (3 - byteLength target)
  else target / 256 ^ (byteLength target - 3)

/-- The compact encoding of a target. -/
def getCompact (target : ℕ) : ℕ :=
  let size := byteLength target
  let word := leadingWord target
  -- the top bit of the word is a sign
  if word < 2 ^ 23 then size * 2 ^ 24 + word else (size + 1) * 2 ^ 24 + word / 256

/-- The easiest target of the main network. -/
def powLimit : ℕ := 2 ^ 224 - 1

/-- Two weeks, in seconds. -/
def targetTimespan : ℕ := 14 * 24 * 60 * 60

/-- The signed duration of a difficulty period, limited to a factor of four either way. -/
def clampTimespan (timespan : ℤ) : ℕ :=
  (max (targetTimespan / 4 : ℤ) (min (targetTimespan * 4) timespan)).toNat

/-- The encoded target of the next difficulty period. -/
def nextWorkRequired (target : ℕ) (timespan : ℤ) : ℕ :=
  getCompact (min (target * clampTimespan timespan % 2 ^ 256 / targetTimespan) powLimit)

/-- The encoded target of a block at a height, from its parent's encoded target and the times of
the parent and of the first block of the difficulty period. -/
def requiredBits (height parentBits : ℕ) (parentTime periodStart : ℕ) : ℕ :=
  if height % 2016 = 0 then
    nextWorkRequired (setCompact parentBits) ((parentTime : ℤ) - periodStart)
  else parentBits

/-- The target of difficulty one. -/
def maxDifficulty : ℕ := 0xFFFF * 2 ^ 208

def difficulty (target : ℕ) : ℕ := maxDifficulty / target

theorem byteLength_eq {target size : ℕ} (lower : 256 ^ size ≤ target)
    (upper : target < 256 ^ (size + 1)) : byteLength target = size + 1 := by
  have positive : target ≠ 0 := by
    have := Nat.pow_pos (n := size) (show 0 < 256 by decide)
    omega
  rw [byteLength, if_neg positive, Nat.log_eq_of_pow_le_of_lt_pow lower upper]

theorem byteLength_zero : byteLength 0 = 0 := rfl

theorem byteLength_le {target bytes : ℕ} (bound : target < 256 ^ bytes) :
    byteLength target ≤ bytes := by
  rw [byteLength]
  split
  · exact Nat.zero_le bytes
  · rename_i positive
    exact Nat.log_lt_of_lt_pow positive bound

theorem lt_byteLength (target : ℕ) : target < 256 ^ byteLength target := by
  rw [byteLength]
  split
  · omega
  · exact Nat.lt_pow_succ_log_self (by decide) target

theorem leadingWord_lt (target : ℕ) : leadingWord target < 2 ^ 24 := by
  have bound := lt_byteLength target
  have bytes : (2 ^ 24 : ℕ) = 256 ^ 3 := by norm_num
  rw [leadingWord, bytes]
  split
  · rename_i small
    have split : 256 ^ 3 = 256 ^ byteLength target * 256 ^ (3 - byteLength target) := by
      rw [← Nat.pow_add, Nat.add_sub_cancel' small]
    rw [split]
    exact Nat.mul_lt_mul_of_pos_right bound (Nat.pow_pos (by decide))
  · have split : 256 ^ byteLength target = 256 ^ 3 * 256 ^ (byteLength target - 3) := by
      rw [← Nat.pow_add]
      congr 1
      omega
    rw [Nat.div_lt_iff_lt_mul (Nat.pow_pos (by decide)), ← split]
    exact bound

/-- The size in an encoding, which grows by one when the leading bit would be the sign. -/
theorem getCompact_size {target bytes : ℕ} (bound : target < 256 ^ bytes) :
    getCompact target / 2 ^ 24 ≤ bytes + 1 := by
  have size := byteLength_le bound
  have wordBound := leadingWord_lt target
  simp only [getCompact]
  split <;> omega

theorem setCompact_lt {nbits : ℕ} (size : nbits / 2 ^ 24 ≤ 32) : setCompact nbits < 256 ^ 32 := by
  have wordBound : nbits % 2 ^ 23 < 256 ^ 3 := by omega
  simp only [setCompact]
  split
  · apply lt_of_le_of_lt (Nat.div_le_self _ _) (lt_trans wordBound _)
    exact Nat.pow_lt_pow_right (by decide) (by decide)
  · have zeros : 256 ^ (nbits / 2 ^ 24 - 3) ≤ 256 ^ 29 :=
      Nat.pow_le_pow_right (by decide) (by omega)
    calc nbits % 2 ^ 23 * 256 ^ (nbits / 2 ^ 24 - 3)
        ≤ nbits % 2 ^ 23 * 256 ^ 29 := Nat.mul_le_mul_left _ zeros
      _ < 256 ^ 3 * 256 ^ 29 := Nat.mul_lt_mul_of_pos_right wordBound (Nat.pow_pos (by decide))
      _ = 256 ^ 32 := by rw [← Nat.pow_add]

/-- A decoded target is a multiple of its bytes after the leading three. -/
theorem setCompact_dvd (nbits : ℕ) :
    256 ^ (byteLength (setCompact nbits) - 3) ∣ setCompact nbits := by
  have wordBound : nbits % 2 ^ 23 < 256 ^ 3 := by omega
  simp only [setCompact]
  split
  · have bound : nbits % 2 ^ 23 / 256 ^ (3 - nbits / 2 ^ 24) < 256 ^ 3 :=
      lt_of_le_of_lt (Nat.div_le_self _ _) wordBound
    have small : byteLength (nbits % 2 ^ 23 / 256 ^ (3 - nbits / 2 ^ 24)) ≤ 3 := by
      simp only [byteLength]
      split
      · omega
      · exact Nat.log_lt_of_lt_pow (by assumption) bound
    rw [Nat.sub_eq_zero_of_le small, Nat.pow_zero]
    exact one_dvd _
  · rename_i large
    obtain ⟨word, wordEq⟩ : ∃ word, word = nbits % 2 ^ 23 := ⟨_, rfl⟩
    obtain ⟨zeros, zerosEq⟩ : ∃ zeros, zeros = nbits / 2 ^ 24 - 3 := ⟨_, rfl⟩
    rw [← wordEq, ← zerosEq]
    rw [← wordEq] at wordBound
    by_cases zero : word * 256 ^ zeros = 0
    · rw [zero]
      exact dvd_zero _
    · have bound : word * 256 ^ zeros < 256 ^ (zeros + 3) := by
        rw [Nat.pow_add, Nat.mul_comm]
        exact Nat.mul_lt_mul_of_pos_left wordBound (Nat.pow_pos (by decide))
      have log := Nat.log_lt_of_lt_pow zero bound
      have short : byteLength (word * 256 ^ zeros) - 3 ≤ zeros := by
        rw [byteLength, if_neg zero]
        omega
      exact Dvd.dvd.mul_left (Nat.pow_dvd_pow 256 short) word

end Bitcoin
