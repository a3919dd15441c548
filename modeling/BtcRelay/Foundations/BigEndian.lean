import Mathlib.Data.Nat.Digits.Lemmas
import Mathlib.Data.Vector.Basic

/-!
# Big-endian byte numerals

A numeral of `n` base-256 digits is a `List.Vector UInt8 n` with its most
significant digit first. This file relates such numerals to the natural number
they denote: the positional recursion on the leading digit, the bound by the
number of digits, injectivity, and the agreement of the order of values with the
lexicographic order of the digits. Arithmetic on numerals is proved digit by
digit from these facts.
-/

namespace BigEndian

open List

variable {n : ℕ}

/-- The natural number denoted by a numeral. -/
def value (digits : List.Vector UInt8 n) : ℕ :=
  Nat.ofDigits 256 (digits.toList.reverse.map UInt8.toNat)

@[simp]
theorem value_nil : value (List.Vector.nil : List.Vector UInt8 0) = 0 := rfl

@[simp]
theorem value_cons (digit : UInt8) (digits : List.Vector UInt8 n) :
    value (digit ::ᵥ digits) = digit.toNat * 256 ^ n + value digits := by
  simp [value, List.Vector.toList_cons, Nat.ofDigits_append, Nat.mul_comm, Nat.add_comm]

theorem value_eq_head_add_tail (digits : List.Vector UInt8 (n + 1)) :
    value digits = digits.head.toNat * 256 ^ n + value digits.tail := by
  conv_lhs => rw [← List.Vector.cons_head_tail digits]
  exact value_cons digits.head digits.tail

theorem value_lt (digits : List.Vector UInt8 n) : value digits < 256 ^ n := by
  have bound := Nat.ofDigits_lt_base_pow_length (b := 256)
    (l := digits.toList.reverse.map UInt8.toNat) (by norm_num) (by
      intro digit digit_mem
      rcases List.mem_map.mp digit_mem with ⟨byte, _, rfl⟩
      exact byte.toNat_lt)
  simpa [value] using bound

theorem value_cons_inj {left right : UInt8} {leftRest rightRest : List.Vector UInt8 n} :
    value (left ::ᵥ leftRest) = value (right ::ᵥ rightRest) ↔
      left = right ∧ value leftRest = value rightRest := by
  constructor
  · intro equal
    rw [value_cons, value_cons] at equal
    have leftBound := value_lt leftRest
    have rightBound := value_lt rightRest
    have heads : left.toNat = right.toNat := by
      have quotients := congrArg (· / 256 ^ n) equal
      simpa [Nat.mul_add_div, Nat.mul_comm _ (256 ^ n), Nat.div_eq_of_lt, leftBound,
        rightBound] using quotients
    refine ⟨UInt8.toNat.inj heads, ?_⟩
    rw [heads] at equal
    omega
  · rintro ⟨rfl, tails⟩
    rw [value_cons, value_cons, tails]

theorem value_injective : Function.Injective (value (n := n)) := by
  induction n with
  | zero =>
      intro left right _
      rw [List.Vector.eq_nil left, List.Vector.eq_nil right]
  | succ n ih =>
      intro left right equal
      rw [← List.Vector.cons_head_tail left, ← List.Vector.cons_head_tail right] at equal ⊢
      rcases value_cons_inj.mp equal with ⟨heads, tails⟩
      rw [heads, ih tails]

theorem value_inj {left right : List.Vector UInt8 n} : value left = value right ↔ left = right :=
  value_injective.eq_iff

/-- A smaller leading digit makes a smaller numeral, whatever the remaining digits. -/
theorem value_cons_lt_of_lt {left right : UInt8} (leftRest rightRest : List.Vector UInt8 n)
    (smaller : left < right) : value (left ::ᵥ leftRest) < value (right ::ᵥ rightRest) := by
  rw [value_cons, value_cons]
  have bound := value_lt leftRest
  have step : (left.toNat + 1) * 256 ^ n ≤ right.toNat * 256 ^ n :=
    Nat.mul_le_mul_right _ (UInt8.lt_iff_toNat_lt.mp smaller)
  rw [Nat.add_mul, Nat.one_mul] at step
  omega

@[simp]
theorem value_replicate_zero : value (List.Vector.replicate n 0) = 0 := by
  induction n with
  | zero => rfl
  | succ n ih => rw [List.Vector.replicate_succ, value_cons, ih]; simp

/-- The `n` low-order base-256 digits of a natural number. -/
def ofNat : (n : ℕ) → ℕ → List.Vector UInt8 n
  | 0, _ => .nil
  | n + 1, number => UInt8.ofNat (number / 256 ^ n) ::ᵥ ofNat n number

@[simp]
theorem value_ofNat (n number : ℕ) : value (ofNat n number) = number % 256 ^ n := by
  induction n with
  | zero => simp [ofNat, Nat.mod_one]
  | succ n ih =>
      rw [ofNat, value_cons, ih, Nat.mod_pow_succ]
      simp [Nat.mul_comm, Nat.add_comm]

theorem eq_ofNat_of_value {digits : List.Vector UInt8 n} {number : ℕ}
    (equal : value digits = number % 256 ^ n) : digits = ofNat n number :=
  value_injective (by rw [equal, value_ofNat])

section Digits

theorem pow_split (i : Fin n) : 256 ^ n = 256 ^ i.val * 256 * 256 ^ (n - 1 - i) := by
  rw [← Nat.pow_succ, ← Nat.pow_add]
  congr 1
  omega

theorem get_toNat (digits : List.Vector UInt8 n) (i : Fin n) :
    (digits.get i).toNat = value digits / 256 ^ (n - 1 - i) % 256 := by
  induction n with
  | zero => exact i.elim0
  | succ n ih =>
      obtain ⟨head, tail, rfl⟩ := List.Vector.exists_eq_cons digits
      have headBound := head.toNat_lt
      have tailBound := value_lt tail
      rw [value_cons]
      cases i using Fin.cases with
      | zero =>
          rw [List.Vector.get_cons_zero, Fin.val_zero, Nat.sub_zero, Nat.add_sub_cancel,
            Nat.add_comm, Nat.add_mul_div_right _ _ (by positivity), Nat.div_eq_of_lt tailBound,
            Nat.zero_add, Nat.mod_eq_of_lt headBound]
      | succ i =>
          have split : head.toNat * 256 ^ n =
              head.toNat * 256 ^ i.val * 256 * 256 ^ (n - 1 - i) := by
            rw [pow_split i]
            ring
          have position : n + 1 - 1 - i.succ.val = n - 1 - i.val := by
            rw [Fin.val_succ]
            omega
          rw [List.Vector.get_cons_succ, ih, position, split, Nat.add_comm,
            Nat.add_mul_div_right _ _ (by positivity), Nat.add_mul_mod_self_right]

theorem get_ofNat (number : ℕ) (i : Fin n) :
    ((ofNat n number).get i).toNat = number / 256 ^ (n - 1 - i) % 256 := by
  have powers : 256 ^ n = 256 ^ (n - 1 - i.val) * (256 * 256 ^ i.val) := by
    rw [pow_split i]
    ring
  rw [get_toNat, value_ofNat, powers, Nat.mod_mul_right_div_self, Nat.mod_mul_right_mod]

/-- The last digit leads the reversed numeral. -/
theorem value_reverse_lt (digits : List.Vector UInt8 (n + 1)) :
    value digits.reverse < (value digits % 256 + 1) * 256 ^ n := by
  have head : digits.reverse.head.toNat = value digits % 256 := by
    rw [List.Vector.reverse_get_zero, List.Vector.last_def, get_toNat, Fin.val_last,
      Nat.add_sub_cancel, Nat.sub_self, Nat.pow_zero, Nat.div_one]
  have bound := value_lt digits.reverse.tail
  rw [value_eq_head_add_tail, head, Nat.succ_mul]
  simp only [Nat.add_sub_cancel] at bound
  omega

theorem value_set (digits : List.Vector UInt8 n) (i : Fin n) (digit : UInt8) :
    value (digits.set i digit) + (digits.get i).toNat * 256 ^ (n - 1 - i) =
      value digits + digit.toNat * 256 ^ (n - 1 - i) := by
  induction n with
  | zero => exact i.elim0
  | succ n ih =>
      obtain ⟨head, tail, rfl⟩ := List.Vector.exists_eq_cons digits
      cases i using Fin.cases with
      | zero =>
          have set : (head ::ᵥ tail).set 0 digit = digit ::ᵥ tail := rfl
          rw [set, value_cons, value_cons, List.Vector.get_cons_zero, Fin.val_zero, Nat.sub_zero,
            Nat.add_sub_cancel]
          omega
      | succ i =>
          have set : (head ::ᵥ tail).set i.succ digit = head ::ᵥ tail.set i digit := rfl
          have position : n + 1 - 1 - i.succ.val = n - 1 - i.val := by
            rw [Fin.val_succ]
            omega
          have here := ih tail i
          rw [set, value_cons, value_cons, List.Vector.get_cons_succ, position]
          omega

/-- Moving the digits to the right divides by a power of the base. -/
theorem value_shiftRight (digits : List.Vector UInt8 n) (shift : ℕ) :
    value (List.Vector.ofFn fun position : Fin n =>
      if position.val < shift then 0
      else digits.get ⟨position.val - shift, by omega⟩) = value digits / 256 ^ shift := by
  have small : value digits / 256 ^ shift < 256 ^ n :=
    lt_of_le_of_lt (Nat.div_le_self _ _) (value_lt digits)
  rw [← Nat.mod_eq_of_lt small, ← value_ofNat, value_inj]
  apply List.Vector.ext
  intro i
  rw [← UInt8.toNat_inj, get_ofNat, List.Vector.get_ofFn, Nat.div_div_eq_div_mul, ← Nat.pow_add]
  split
  · have large : value digits < 256 ^ (shift + (n - 1 - i)) :=
      lt_of_lt_of_le (value_lt digits) (Nat.pow_le_pow_right (by decide) (by omega))
    rw [Nat.div_eq_of_lt large]
    rfl
  · have position : n - 1 - (i.val - shift) = shift + (n - 1 - i) := by omega
    rw [get_toNat, position]

/-- The position of the leading nonzero digit says between which powers the value lies. -/
theorem value_of_findIdx? {digits : List.Vector UInt8 n} {i : ℕ}
    (found : digits.toList.findIdx? (fun byte => 0 < byte) = some i) :
    i < n ∧ 256 ^ (n - 1 - i) ≤ value digits ∧ value digits < 256 ^ (n - i) := by
  induction n generalizing i with
  | zero =>
      rw [List.Vector.eq_nil digits] at found
      cases found
  | succ n ih =>
      obtain ⟨head, tail, rfl⟩ := List.Vector.exists_eq_cons digits
      rw [List.Vector.toList_cons, List.findIdx?_cons] at found
      split at found
      · rename_i positive
        cases found
        have atLeast : 1 ≤ head.toNat := UInt8.lt_iff_toNat_lt.mp (of_decide_eq_true positive)
        have scaled := Nat.mul_le_mul_right (256 ^ n) atLeast
        refine ⟨Nat.succ_pos n, ?_, value_lt _⟩
        rw [value_cons, Nat.sub_zero, Nat.add_sub_cancel]
        omega
      · rename_i zero
        rcases Option.map_eq_some_iff.mp found with ⟨j, inTail, rfl⟩
        have none_head : head.toNat = 0 := by
          by_contra nonzero
          apply zero
          exact decide_eq_true (UInt8.lt_iff_toNat_lt.mpr (Nat.pos_of_ne_zero nonzero))
        have position : n + 1 - 1 - (j + 1) = n - 1 - j := by omega
        rcases ih inTail with ⟨inRange, lower, upper⟩
        rw [value_cons, none_head, Nat.zero_mul, Nat.zero_add, position, Nat.add_sub_add_right]
        exact ⟨by omega, lower, upper⟩

theorem value_of_findIdx?_eq_none {digits : List.Vector UInt8 n}
    (none_found : digits.toList.findIdx? (fun byte => 0 < byte) = none) : value digits = 0 := by
  induction n with
  | zero =>
      rw [List.Vector.eq_nil digits]
      rfl
  | succ n ih =>
      obtain ⟨head, tail, rfl⟩ := List.Vector.exists_eq_cons digits
      rw [List.Vector.toList_cons, List.findIdx?_cons] at none_found
      split at none_found
      · cases none_found
      · rename_i zero
        have none_head : head.toNat = 0 := by
          by_contra nonzero
          apply zero
          exact decide_eq_true (UInt8.lt_iff_toNat_lt.mpr (Nat.pos_of_ne_zero nonzero))
        rw [value_cons, none_head, ih (Option.map_eq_none_iff.mp none_found)]
        omega

end Digits

end BigEndian
