import BtcRelay.Foundations.OrderStatistics
import Mathlib.Data.Nat.Basic

/-!
# Moving medians

A log of entries, the newest first, in which each new entry is above the median of the
window of entries before it. The median of the window then never falls. For numbers it
climbs: each time that more than half of the window is new, by at least one. So the log
cannot grow longer than the entries allow.
-/

namespace OrderStatistics

section

variable {α : Type*} [LinearOrder α] {width : ℕ} {default entry : α} {base newer recent : List α}

/-- The median of the newest entries of a log. -/
def movingMedian (width : ℕ) (default : α) (log : List α) : α :=
  median default (log.take width)

/-- Each of the newer entries is above the moving median of the log before it. -/
inductive AboveMedian (width : ℕ) (default : α) (base : List α) : List α → Prop
  | nil : AboveMedian width default base []
  | cons {entry : α} {newer : List α}
      (above : movingMedian width default (newer ++ base) < entry)
      (rest : AboveMedian width default base newer) :
      AboveMedian width default base (entry :: newer)

theorem movingMedian_lt_iff (positive : 0 < width) (long : width ≤ base.length) (bound : α) :
    movingMedian width default base < bound ↔ width / 2 < (base.take width).countP (· < bound) := by
  have length : (base.take width).length = width := by
    rw [List.length_take]
    omega
  have nonempty : base.take width ≠ [] := by
    apply List.ne_nil_of_length_pos
    omega
  rw [movingMedian, median_lt_iff nonempty, length]

/-- An entry above the median of a window does not lower it, whichever entry it replaces. -/
theorem movingMedian_le_cons (long : width ≤ base.length)
    (above : movingMedian width default base < entry) :
    movingMedian width default base ≤ movingMedian width default (entry :: base) := by
  rcases Nat.eq_zero_or_pos width with rfl | positive
  · exact le_refl _
  · by_contra lower
    rw [not_le] at lower
    have half := (movingMedian_lt_iff positive
      (le_trans long (Nat.le_succ _) : width ≤ (entry :: base).length) _).mp lower
    obtain ⟨rest, rfl⟩ : ∃ rest, width = rest + 1 := ⟨width - 1, by omega⟩
    have notBelow : ¬entry < movingMedian (rest + 1) default base := not_lt_of_gt above
    rw [List.take_succ_cons, List.countP_cons, if_neg (by simpa using notBelow)] at half
    -- what remains of the old window has no more entries below its median than all of it
    have more : (base.take rest).countP (· < movingMedian (rest + 1) default base) ≤
        (base.take (rest + 1)).countP (· < movingMedian (rest + 1) default base) := by
      apply List.Sublist.countP_le
      exact List.take_sublist_take_left (Nat.le_succ rest)
    have self : movingMedian (rest + 1) default base < movingMedian (rest + 1) default base :=
      (movingMedian_lt_iff positive long _).mpr (by omega)
    exact lt_irrefl _ self

namespace AboveMedian

theorem movingMedian_le (aboveMedian : AboveMedian width default base newer)
    (long : width ≤ base.length) :
    movingMedian width default base ≤ movingMedian width default (newer ++ base) := by
  induction aboveMedian with
  | nil => exact le_refl _
  | @cons entry newer above rest ih =>
      apply le_trans ih
      apply movingMedian_le_cons _ above
      rw [List.length_append]
      omega

theorem movingMedian_lt_of_mem (aboveMedian : AboveMedian width default base newer)
    (long : width ≤ base.length) : ∀ entry ∈ newer, movingMedian width default base < entry := by
  induction aboveMedian with
  | nil =>
      intro entry member
      cases member
  | cons above rest ih =>
      intro entry member
      rcases List.mem_cons.mp member with rfl | member
      · exact lt_of_le_of_lt (rest.movingMedian_le long) above
      · exact ih entry member

theorem of_append (aboveMedian : AboveMedian width default base (recent ++ newer)) :
    AboveMedian width default (newer ++ base) recent ∧ AboveMedian width default base newer := by
  induction recent with
  | nil => exact ⟨.nil, aboveMedian⟩
  | cons entry rest ih =>
      cases aboveMedian with
      | cons above tail =>
          rcases ih tail with ⟨front, back⟩
          have older : (rest ++ newer) ++ base = rest ++ (newer ++ base) :=
            List.append_assoc rest newer base
          exact ⟨.cons (older ▸ above) front, back⟩

end AboveMedian

end

section

variable {width : ℕ} {base newer : List ℕ}

namespace AboveMedian

/-- Once more than half of the window is new, the median has climbed. -/
theorem succ_movingMedian_le (aboveMedian : AboveMedian width 0 base newer) (positive : 0 < width)
    (long : width ≤ base.length) (half : newer.length = width / 2 + 1) :
    movingMedian width 0 base + 1 ≤ movingMedian width 0 (newer ++ base) := by
  have above := aboveMedian.movingMedian_lt_of_mem long
  have longer : width ≤ (newer ++ base).length := by
    rw [List.length_append]
    omega
  by_contra lower
  have below := (movingMedian_lt_iff positive longer _).mp (not_le.mp lower)
  -- none of the new entries is among those below, and they fill more than half of the window
  have none : (newer.take width).countP (· < movingMedian width 0 base + 1) = 0 := by
    apply List.countP_eq_zero.mpr
    intro entry member
    have larger := above entry (List.mem_of_mem_take member)
    simp only [decide_eq_true_eq]
    omega
  have rest : (base.take (width - newer.length)).countP (· < movingMedian width 0 base + 1) ≤
      width - newer.length :=
    le_trans List.countP_le_length (List.length_take_le _ _)
  rw [List.take_append, List.countP_append, none] at below
  omega

/-- The median climbs by at least one with every `width / 2 + 1` entries. -/
theorem add_div_le_movingMedian (aboveMedian : AboveMedian width 0 base newer)
    (positive : 0 < width) (long : width ≤ base.length) :
    movingMedian width 0 base + newer.length / (width / 2 + 1) ≤
      movingMedian width 0 (newer ++ base) := by
  induction length : newer.length using Nat.strong_induction_on generalizing newer with
  | _ count ih =>
      by_cases few : count < width / 2 + 1
      · rw [Nat.div_eq_of_lt few]
        exact aboveMedian.movingMedian_le long
      · obtain ⟨recent, older, rfl, half⟩ : ∃ recent older, newer = recent ++ older ∧
            recent.length = width / 2 + 1 := by
          refine ⟨newer.take (width / 2 + 1), newer.drop (width / 2 + 1),
            (List.take_append_drop _ _).symm, ?_⟩
          rw [List.length_take]
          omega
        rw [List.length_append] at length
        rcases aboveMedian.of_append with ⟨front, back⟩
        have before := ih older.length (by omega) back rfl
        have climb := front.succ_movingMedian_le positive
          (by rw [List.length_append]; omega) half
        have blocks : count / (width / 2 + 1) = older.length / (width / 2 + 1) + 1 := by
          rw [← length, half, Nat.add_comm, Nat.add_div_right _ (by omega)]
        rw [List.append_assoc]
        omega

/-- The newest entry bounds the number of entries. -/
theorem length_le {entry : ℕ} (aboveMedian : AboveMedian width 0 base (entry :: newer))
    (positive : 0 < width) (long : width ≤ base.length) :
    (entry :: newer).length ≤ (width / 2 + 1) * (entry - movingMedian width 0 base) := by
  cases aboveMedian with
  | cons above rest =>
      have climbed := rest.add_div_le_movingMedian positive long
      have gap : newer.length / (width / 2 + 1) + 1 ≤ entry - movingMedian width 0 base := by omega
      have scaled := Nat.mul_le_mul_left (width / 2 + 1) gap
      have rounded := Nat.lt_mul_div_succ newer.length (show 0 < width / 2 + 1 by omega)
      rw [List.length_cons]
      omega

end AboveMedian

end

end OrderStatistics
