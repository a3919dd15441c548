import BtcRelay.Foundations.BigEndian
import BtcRelay.Program.Machine

/-!
# 256-bit arithmetic on byte arrays

The loops of `arrayutils.rs` on big-endian arrays. Addition and multiplication run
from the last byte to the first with a carry, division and the comparisons from the
first byte to the last. A loop is a recursion on the array: the running carry or
remainder is its second result or its argument. The intermediate `u16` and `u64`
values are checked, as the build checks them, and are shown never to overflow.
-/

namespace BtcRelay

open BigEndian

variable {n : ℕ}

/-- The loop of `add_in_place`, with the final carry. -/
def addLoop : {n : ℕ} → List.Vector UInt8 n → List.Vector UInt8 n → Exec (List.Vector UInt8 n × ℕ)
  | 0, _, _ => .ok (.nil, 0)
  | _ + 1, arr, add => do
      let (rest, remainder) ← addLoop arr.tail add.tail
      let val ← Exec.fitsIn 16 (arr.head.toNat + add.head.toNat + remainder)
      .ok (UInt8.ofNat (val % 256) ::ᵥ rest, val / 256)

def addInPlace (arr add : Bytes32) : Exec Bytes32 := do
  let (arr, _) ← addLoop arr add
  .ok arr

/-- The loop of `mul_in_place`, with the final carry. -/
def mulLoop (castedMul : ℕ) : {n : ℕ} → List.Vector UInt8 n → Exec (List.Vector UInt8 n × ℕ)
  | 0, _ => .ok (.nil, 0)
  | _ + 1, arr => do
      let (rest, remainder) ← mulLoop castedMul arr.tail
      let val ← Exec.fitsIn 64 (arr.head.toNat * castedMul + remainder)
      .ok (UInt8.ofNat (val % 256) ::ᵥ rest, val / 256)

def mulInPlace (arr : Bytes32) (multiplicator : UInt32) : Exec Bytes32 := do
  let (arr, _) ← mulLoop multiplicator.toNat arr
  .ok arr

/-- The loop of `div_in_place`, entered with a remainder. -/
def divLoop (castedDiv : ℕ) : {n : ℕ} → List.Vector UInt8 n → ℕ → Exec (List.Vector UInt8 n)
  | 0, _, _ => .ok .nil
  | _ + 1, arr, remainder => do
      let val ← Exec.fitsIn 64 (arr.head.toNat + remainder)
      -- a division by zero panics
      if castedDiv = 0 then Exec.abort
      let result := val / castedDiv
      let remainder ← Exec.fitsIn 64 (val % castedDiv * 256)
      let rest ← divLoop castedDiv arr.tail remainder
      .ok (UInt8.ofNat result ::ᵥ rest)

def divInPlace (arr : Bytes32) (divisor : UInt32) : Exec Bytes32 :=
  divLoop divisor.toNat arr 0

/-- The quotients that the steps of `divLoop` compute, before each is cast to a byte. -/
def stepQuotients (castedDiv : ℕ) : {n : ℕ} → List.Vector UInt8 n → ℕ → List ℕ
  | 0, _, _ => []
  | _ + 1, arr, remainder =>
      let val := arr.head.toNat + remainder
      val / castedDiv :: stepQuotients castedDiv arr.tail (val % castedDiv * 256)

def gteArr : {n : ℕ} → List.Vector UInt8 n → List.Vector UInt8 n → Bool
  | 0, _, _ => true
  | _ + 1, arr1, arr2 =>
      if arr1.head > arr2.head then true
      else if arr1.head < arr2.head then false
      else gteArr arr1.tail arr2.tail

def lteArr (arr1 arr2 : List.Vector UInt8 n) : Bool :=
  gteArr arr2 arr1

def gtArr : {n : ℕ} → List.Vector UInt8 n → List.Vector UInt8 n → Bool
  | 0, _, _ => false
  | _ + 1, arr1, arr2 =>
      if arr1.head > arr2.head then true
      else if arr1.head < arr2.head then false
      else gtArr arr1.tail arr2.tail

theorem addLoop_spec (arr add : List.Vector UInt8 n) :
    ∃ sum carry, addLoop arr add = .ok (sum, carry) ∧ carry ≤ 1 ∧
      value sum + carry * 256 ^ n = value arr + value add := by
  induction n with
  | zero => exact ⟨.nil, 0, rfl, by omega, by simp [value, List.Vector.eq_nil]⟩
  | succ n ih =>
      rcases ih arr.tail add.tail with ⟨rest, carry, run, carryBound, exact⟩
      have arrBound := arr.head.toNat_lt
      have addBound := add.head.toNat_lt
      obtain ⟨val, valEq⟩ : ∃ val, val = arr.head.toNat + add.head.toNat + carry := ⟨_, rfl⟩
      have valBound : val < 2 ^ 16 := by omega
      refine ⟨UInt8.ofNat (val % 256) ::ᵥ rest, val / 256, ?_, by omega, ?_⟩
      · simp only [addLoop, run, Exec.ok_bind, ← valEq, Exec.fitsIn_of_lt valBound]
      · have split : val % 256 + 256 * (val / 256) = val := Nat.mod_add_div val 256
        have digit : (UInt8.ofNat (val % 256)).toNat = val % 256 := by simp
        rw [value_cons, digit, value_eq_head_add_tail arr, value_eq_head_add_tail add]
        calc val % 256 * 256 ^ n + value rest + val / 256 * 256 ^ (n + 1)
            = (val % 256 + 256 * (val / 256)) * 256 ^ n + value rest := by ring
          _ = (arr.head.toNat + add.head.toNat) * 256 ^ n + (value rest + carry * 256 ^ n) := by
              rw [split, valEq]; ring
          _ = _ := by rw [exact]; ring

theorem addInPlace_eq (arr add : Bytes32) :
    addInPlace arr add = .ok (ofNat 32 (value arr + value add)) := by
  rcases addLoop_spec arr add with ⟨sum, carry, run, _, exact⟩
  simp only [addInPlace, run, Exec.ok_bind]
  refine congrArg Except.ok (eq_ofNat_of_value ?_)
  rw [← exact, Nat.add_mul_mod_self_right, Nat.mod_eq_of_lt (value_lt sum)]

/-- The multiplication loop computes the product, and its carry stays below the multiplier. -/
theorem mulLoop_spec {castedMul : ℕ} (bound : castedMul < 2 ^ 32) (arr : List.Vector UInt8 n) :
    ∃ product carry, mulLoop castedMul arr = .ok (product, carry) ∧ carry ≤ castedMul ∧
      value product + carry * 256 ^ n = value arr * castedMul := by
  induction n with
  | zero => exact ⟨.nil, 0, rfl, by omega, by simp [value, List.Vector.eq_nil]⟩
  | succ n ih =>
      rcases ih arr.tail with ⟨rest, carry, run, carryBound, exact⟩
      have headBound := arr.head.toNat_lt
      obtain ⟨val, valEq⟩ : ∃ val, val = arr.head.toNat * castedMul + carry := ⟨_, rfl⟩
      have valLe : val ≤ 256 * castedMul := by
        have := Nat.mul_le_mul_right castedMul (show arr.head.toNat ≤ 255 by omega)
        omega
      have valBound : val < 2 ^ 64 := by omega
      refine ⟨UInt8.ofNat (val % 256) ::ᵥ rest, val / 256, ?_, by omega, ?_⟩
      · simp only [mulLoop, run, Exec.ok_bind, ← valEq, Exec.fitsIn_of_lt valBound]
      · have split : val % 256 + 256 * (val / 256) = val := Nat.mod_add_div val 256
        have digit : (UInt8.ofNat (val % 256)).toNat = val % 256 := by simp
        rw [value_cons, digit, value_eq_head_add_tail arr]
        calc val % 256 * 256 ^ n + value rest + val / 256 * 256 ^ (n + 1)
            = (val % 256 + 256 * (val / 256)) * 256 ^ n + value rest := by ring
          _ = arr.head.toNat * castedMul * 256 ^ n + (value rest + carry * 256 ^ n) := by
              rw [split, valEq]; ring
          _ = _ := by rw [exact]; ring

theorem mulInPlace_eq (arr : Bytes32) (multiplicator : UInt32) :
    mulInPlace arr multiplicator = .ok (ofNat 32 (value arr * multiplicator.toNat)) := by
  rcases mulLoop_spec multiplicator.toNat_lt arr with ⟨product, carry, run, _, exact⟩
  simp only [mulInPlace, run, Exec.ok_bind]
  refine congrArg Except.ok (eq_ofNat_of_value ?_)
  rw [← exact, Nat.add_mul_mod_self_right, Nat.mod_eq_of_lt (value_lt product)]

/-- The quotient of one step fits in a byte, since the remainder is below the divisor. -/
theorem stepQuotient_lt {castedDiv remainder : ℕ} (positive : 0 < castedDiv)
    (remainderBound : remainder < castedDiv) (byte : UInt8) :
    (byte.toNat + remainder * 256) / castedDiv < 256 := by
  have byteBound := byte.toNat_lt
  have scaled := Nat.mul_le_mul_left 256 (Nat.succ_le_of_lt remainderBound)
  rw [Nat.div_lt_iff_lt_mul positive]
  omega

theorem divLoop_spec {castedDiv : ℕ} (positive : 0 < castedDiv) (bound : castedDiv < 2 ^ 32)
    (arr : List.Vector UInt8 n) {remainder : ℕ} (remainderBound : remainder < castedDiv) :
    ∃ quotient, divLoop castedDiv arr (remainder * 256) = .ok quotient ∧
      value quotient = (remainder * 256 ^ n + value arr) / castedDiv := by
  induction n generalizing remainder with
  | zero =>
      refine ⟨.nil, rfl, ?_⟩
      rw [List.Vector.eq_nil arr]
      simp [Nat.div_eq_of_lt remainderBound]
  | succ n ih =>
      have headBound := arr.head.toNat_lt
      obtain ⟨val, valEq⟩ : ∃ val, val = arr.head.toNat + remainder * 256 := ⟨_, rfl⟩
      have valBound : val < 2 ^ 64 := by omega
      have nextBound : val % castedDiv < castedDiv := Nat.mod_lt _ positive
      have shiftedBound : val % castedDiv * 256 < 2 ^ 64 := by omega
      rcases ih arr.tail nextBound with ⟨rest, run, exact⟩
      refine ⟨UInt8.ofNat (val / castedDiv) ::ᵥ rest, ?_, ?_⟩
      · simp only [divLoop, ← valEq, Exec.fitsIn_of_lt valBound, Exec.ok_bind,
          Nat.ne_of_gt positive, if_false, Exec.fitsIn_of_lt shiftedBound, run]
      · have byte : val / castedDiv < 256 := by
          rw [valEq]
          exact stepQuotient_lt positive remainderBound arr.head
        have digit : (UInt8.ofNat (val / castedDiv)).toNat = val / castedDiv := by
          simp [Nat.mod_eq_of_lt byte]
        rw [value_cons, digit, exact, value_eq_head_add_tail arr]
        have whole : remainder * 256 ^ (n + 1) + (arr.head.toNat * 256 ^ n + value arr.tail) =
            val % castedDiv * 256 ^ n + value arr.tail + val / castedDiv * 256 ^ n * castedDiv := by
          have split := Nat.mod_add_div val castedDiv
          calc _ = val * 256 ^ n + value arr.tail := by rw [valEq]; ring
            _ = (val % castedDiv + castedDiv * (val / castedDiv)) * 256 ^ n + value arr.tail := by
                rw [split]
            _ = _ := by ring
        rw [whole, Nat.add_mul_div_right _ _ positive, Nat.add_comm]

theorem stepQuotients_lt {castedDiv : ℕ} (positive : 0 < castedDiv)
    (arr : List.Vector UInt8 n) {remainder : ℕ} (remainderBound : remainder < castedDiv) :
    ∀ quotient ∈ stepQuotients castedDiv arr (remainder * 256), quotient < 256 := by
  induction n generalizing remainder with
  | zero =>
      intro quotient member
      exact absurd member List.not_mem_nil
  | succ n ih =>
      intro quotient member
      rcases List.mem_cons.mp member with rfl | later
      · exact stepQuotient_lt positive remainderBound arr.head
      · exact ih arr.tail (Nat.mod_lt _ positive) quotient later

/-- The bytes of the result are the quotients of the steps. -/
theorem toList_of_divLoop {castedDiv : ℕ} {arr quotient : List.Vector UInt8 n} {remainder : ℕ}
    (run : divLoop castedDiv arr remainder = .ok quotient) :
    quotient.toList = (stepQuotients castedDiv arr remainder).map UInt8.ofNat := by
  induction n generalizing remainder with
  | zero =>
      rw [List.Vector.eq_nil quotient]
      rfl
  | succ n ih =>
      simp only [divLoop, Exec.bind_eq_ok_iff, Exec.fitsIn_eq_ok_iff] at run
      rcases run with ⟨_, ⟨_, rfl⟩, afterDivision⟩
      split at afterDivision
      · cases afterDivision
      · simp only [Exec.bind_eq_ok_iff, Exec.fitsIn_eq_ok_iff] at afterDivision
        rcases afterDivision with ⟨_, ⟨_, rfl⟩, rest, runRest, built⟩
        rw [← Except.ok.inj built, List.Vector.toList_cons, ih runRest]
        rfl

theorem divInPlace_eq (arr : Bytes32) {divisor : UInt32} (positive : 0 < divisor.toNat) :
    divInPlace arr divisor = .ok (ofNat 32 (value arr / divisor.toNat)) := by
  rcases divLoop_spec positive divisor.toNat_lt arr positive with ⟨quotient, run, exact⟩
  simp only [Nat.zero_mul, Nat.zero_add] at run exact
  rw [divInPlace, run]
  refine congrArg Except.ok (eq_ofNat_of_value ?_)
  rw [exact, Nat.mod_eq_of_lt]
  exact lt_of_le_of_lt (Nat.div_le_self _ _) (value_lt arr)

theorem divInPlace_zero (arr : Bytes32) {divisor : UInt32} (zero : divisor.toNat = 0) :
    divInPlace arr divisor = Exec.abort := by
  have headBound := arr.head.toNat_lt
  have fits : Exec.fitsIn 64 (arr.head.toNat + 0) = .ok (arr.head.toNat + 0) :=
    Exec.fitsIn_of_lt (by omega)
  rw [divInPlace, zero, divLoop, fits]
  rfl

theorem lt_or_eq_or_lt (left right : UInt8) : left < right ∨ left = right ∨ right < left := by
  by_cases equal : left = right
  · exact Or.inr (Or.inl equal)
  · rcases UInt8.lt_or_lt_of_ne equal with less | greater
    · exact Or.inl less
    · exact Or.inr (Or.inr greater)

/-- The comparison loops decide the order of the values. -/
theorem gtArr_iff (arr1 arr2 : List.Vector UInt8 n) :
    gtArr arr1 arr2 = true ↔ value arr2 < value arr1 := by
  induction n with
  | zero => simp [gtArr, List.Vector.eq_nil]
  | succ n ih =>
      obtain ⟨byte1, rest1, rfl⟩ := List.Vector.exists_eq_cons arr1
      obtain ⟨byte2, rest2, rfl⟩ := List.Vector.exists_eq_cons arr2
      simp only [gtArr, List.Vector.head_cons, List.Vector.tail_cons, gt_iff_lt]
      rcases lt_or_eq_or_lt byte1 byte2 with less | equal | greater
      · have smaller := value_cons_lt_of_lt rest1 rest2 less
        rw [if_neg (UInt8.lt_asymm less), if_pos less]
        simpa only [Bool.false_eq_true, false_iff] using smaller.not_gt
      · subst equal
        simp [ih]
      · have larger := value_cons_lt_of_lt rest2 rest1 greater
        rw [if_pos greater]
        simpa only [true_iff] using larger

theorem gteArr_iff (arr1 arr2 : List.Vector UInt8 n) :
    gteArr arr1 arr2 = true ↔ value arr2 ≤ value arr1 := by
  induction n with
  | zero => simp [gteArr, List.Vector.eq_nil]
  | succ n ih =>
      obtain ⟨byte1, rest1, rfl⟩ := List.Vector.exists_eq_cons arr1
      obtain ⟨byte2, rest2, rfl⟩ := List.Vector.exists_eq_cons arr2
      simp only [gteArr, List.Vector.head_cons, List.Vector.tail_cons, gt_iff_lt]
      rcases lt_or_eq_or_lt byte1 byte2 with less | equal | greater
      · have smaller := value_cons_lt_of_lt rest1 rest2 less
        rw [if_neg (UInt8.lt_asymm less), if_pos less]
        simpa only [Bool.false_eq_true, false_iff] using smaller.not_ge
      · subst equal
        simp [ih]
      · have larger := value_cons_lt_of_lt rest2 rest1 greater
        rw [if_pos greater]
        simpa only [true_iff] using larger.le

theorem lteArr_iff (arr1 arr2 : List.Vector UInt8 n) :
    lteArr arr1 arr2 = true ↔ value arr1 ≤ value arr2 :=
  gteArr_iff arr2 arr1

/-- The arithmetic is that of the values modulo `2 ^ 256`. Every loop completes, so no checked
`u16` or `u64` overflows, and every step quotient fits in the byte it is cast to. -/
theorem byteArithmetic_exact (arr1 arr2 : Bytes32) (operand : UInt32) :
    (∃ sum, addInPlace arr1 arr2 = .ok sum ∧
      value sum = (value arr1 + value arr2) % 2 ^ 256) ∧
    (∃ product, mulInPlace arr1 operand = .ok product ∧
      value product = value arr1 * operand.toNat % 2 ^ 256) ∧
    (0 < operand.toNat → ∃ quotient, divInPlace arr1 operand = .ok quotient ∧
      value quotient = value arr1 / operand.toNat ∧
      quotient.toList = (stepQuotients operand.toNat arr1 0).map UInt8.ofNat ∧
      ∀ stepQuotient ∈ stepQuotients operand.toNat arr1 0, stepQuotient < 256) ∧
    (gtArr arr1 arr2 = true ↔ value arr2 < value arr1) ∧
    (gteArr arr1 arr2 = true ↔ value arr2 ≤ value arr1) ∧
    (lteArr arr1 arr2 = true ↔ value arr1 ≤ value arr2) := by
  have words : (2 ^ 256 : ℕ) = 256 ^ 32 := by norm_num
  refine ⟨⟨_, addInPlace_eq arr1 arr2, ?_⟩, ⟨_, mulInPlace_eq arr1 operand, ?_⟩, ?_,
    gtArr_iff arr1 arr2, gteArr_iff arr1 arr2, lteArr_iff arr1 arr2⟩
  · rw [value_ofNat, words]
  · rw [value_ofNat, words]
  · intro positive
    have run := divInPlace_eq arr1 positive
    refine ⟨_, run, ?_, toList_of_divLoop run, ?_⟩
    · rw [value_ofNat, Nat.mod_eq_of_lt]
      exact lt_of_le_of_lt (Nat.div_le_self _ _) (value_lt arr1)
    · have bounds := stepQuotients_lt positive arr1 positive
      rwa [Nat.zero_mul] at bounds

end BtcRelay
