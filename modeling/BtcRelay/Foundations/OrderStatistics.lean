import Mathlib.Data.List.Sort
import Mathlib.Order.Basic

/-!
# Medians by counting

The median of a list is the middle entry of the sorted list. Whether it is below a value
can be decided without sorting, by counting the entries below that value.
-/

namespace OrderStatistics

variable {α : Type*} [LinearOrder α]

/-- The middle entry of a list in sorted order, the later one of two. -/
def median (default : α) (entries : List α) : α :=
  (entries.insertionSort (· ≤ ·)).getD (entries.length / 2) default

/-- An entry of a sorted list is below a bound exactly when more entries are below the bound
than come before it. -/
theorem getElem_lt_iff_of_pairwise {sorted : List α} (ordered : sorted.Pairwise (· ≤ ·))
    (bound : α) {k : ℕ} (inRange : k < sorted.length) :
    sorted[k] < bound ↔ k < sorted.countP (· < bound) := by
  induction sorted generalizing k with
  | nil => exact absurd inRange (Nat.not_lt_zero k)
  | cons first rest ih =>
      rcases List.pairwise_cons.mp ordered with ⟨least, restOrdered⟩
      by_cases below : first < bound
      · have counted : (first :: rest).countP (· < bound) = rest.countP (· < bound) + 1 := by
          simp [below]
        cases k with
        | zero => simp [below]
        | succ k =>
            rw [counted]
            simpa using ih restOrdered (Nat.lt_of_succ_lt_succ inRange)
      · -- nothing after the first entry is below the bound either
        have above : ∀ entry ∈ first :: rest, ¬entry < bound := by
          intro entry member
          rcases List.mem_cons.mp member with rfl | later
          · exact below
          · exact not_lt.mpr (le_trans (not_lt.mp below) (least entry later))
        have none : (first :: rest).countP (· < bound) = 0 := by
          apply List.countP_eq_zero.mpr
          simpa using above
        rw [none]
        exact iff_of_false (above _ (List.getElem_mem inRange)) (Nat.not_lt_zero k)

/-- The median is below a bound exactly when more than half of the entries are. -/
theorem median_lt_iff {entries : List α} (nonempty : entries ≠ []) (default bound : α) :
    median default entries < bound ↔ entries.length / 2 < entries.countP (· < bound) := by
  have positive := List.length_pos_iff.mpr nonempty
  have inRange : entries.length / 2 < (entries.insertionSort (· ≤ ·)).length := by
    rw [List.length_insertionSort]
    omega
  have sorted := List.pairwise_insertionSort (· ≤ ·) entries
  have same := (List.perm_insertionSort (· ≤ ·) entries).countP_eq (· < bound)
  rw [median, List.getD_eq_getElem?_getD, List.getElem?_eq_getElem inRange, Option.getD_some,
    ← same]
  exact getElem_lt_iff_of_pairwise sorted bound inRange

theorem median_lt_of_forall {entries : List α} (nonempty : entries ≠ []) (default : α) {bound : α}
    (below : ∀ entry ∈ entries, entry < bound) : median default entries < bound := by
  have positive := List.length_pos_iff.mpr nonempty
  have all : entries.countP (· < bound) = entries.length := by
    apply List.countP_eq_length.mpr
    simpa using below
  rw [median_lt_iff nonempty, all]
  omega

end OrderStatistics
