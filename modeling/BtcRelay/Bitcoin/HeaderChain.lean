import BtcRelay.Bitcoin.Compact
import BtcRelay.Foundations.OrderStatistics
import Mathlib.Algebra.BigOperators.Group.List.Basic

/-!
# Chains of headers

The header rules of the main network, for a chain that is picked up at some header. The
blocks after that header are listed with the newest first, so that every rule about a
block is a statement about the rest of the list.
-/

namespace Bitcoin

open OrderStatistics

/-- What the rules read of a header. -/
structure Header (Hash : Type*) where
  hash : Hash
  parent : Hash
  number : ℕ
  bits : ℕ
  time : ℕ

/-- The header at which a chain is picked up, with what the rules read of the chain before. -/
structure Anchor (Hash : Type*) where
  header : Header Hash
  height : ℕ
  /-- The times of the headers before, the newest first. -/
  earlierTimes : List ℕ
  periodStart : ℕ
  work : ℕ

/-- The median of eleven times is below one that few of the times before it reach. -/
theorem median_take_lt {time : ℕ} {earlier : List ℕ} (long : 11 ≤ earlier.length)
    (few : earlier.countP (fun other => ¬other < time) ≤ 5) :
    median 0 (earlier.take 11) < time := by
  have length : (earlier.take 11).length = 11 := by
    rw [List.length_take]
    omega
  have nonempty : earlier.take 11 ≠ [] := by
    apply List.ne_nil_of_length_pos
    omega
  have sublist := (List.take_sublist 11 earlier).countP_le (p := fun other => ¬other < time)
  have split := List.length_eq_countP_add_countP (fun other => decide (other < time))
    (l := earlier.take 11)
  simp only [decide_eq_true_eq] at split
  rw [median_lt_iff nonempty]
  omega

theorem countP_not_lt_eq_zero {time : ℕ} {times : List ℕ} (below : ∀ other ∈ times, other < time) :
    times.countP (fun other => ¬other < time) = 0 := by
  apply List.countP_eq_zero.mpr
  simpa using below

theorem medians_of_descending {times : List ℕ} (descending : times.Pairwise (· > ·)) (time : ℕ)
    (earlier : List ℕ) (suffix : time :: earlier <:+ times) (long : 11 ≤ earlier.length) :
    median 0 (earlier.take 11) < time := by
  apply median_take_lt long
  rw [countP_not_lt_eq_zero (List.pairwise_cons.mp (descending.sublist suffix.sublist)).1]
  omega

/-- One block may be ahead of those after it. -/
theorem medians_of_outlier {later older : List ℕ} {outlier : ℕ}
    (descending : (later ++ older).Pairwise (· > ·)) (ahead : ∀ time ∈ older, time < outlier)
    (time : ℕ) (earlier : List ℕ) (suffix : time :: earlier <:+ later ++ outlier :: older)
    (long : 11 ≤ earlier.length) : median 0 (earlier.take 11) < time := by
  have from_outlier : time :: earlier <:+ outlier :: older →
      median 0 (earlier.take 11) < time := by
    intro suffix
    apply medians_of_descending _ time earlier suffix long
    exact List.pairwise_cons.mpr ⟨ahead, (List.pairwise_append.mp descending).2.1⟩
  rcases suffix with ⟨front, split⟩
  rcases List.append_eq_append_iff.mp split with ⟨rest, laterEq, earlierEq⟩ | ⟨rest, _, olderEq⟩
  · cases rest with
    | nil =>
        apply from_outlier
        rw [earlierEq]
        exact List.suffix_refl _
    | cons _ rest =>
        rw [List.cons_append, List.cons.injEq] at earlierEq
        rcases earlierEq with ⟨rfl, rfl⟩
        rw [laterEq, List.append_assoc] at descending
        have below := (List.pairwise_cons.mp (List.pairwise_append.mp descending).2.1).1
        apply median_take_lt long
        rw [List.countP_append, List.countP_cons,
          countP_not_lt_eq_zero fun other member => below other (List.mem_append_left older member),
          countP_not_lt_eq_zero fun other member => below other (List.mem_append_right rest member)]
        split <;> omega
  · exact from_outlier ⟨rest, olderEq.symm⟩

namespace Anchor

variable {Hash : Type*} (anchor : Anchor Hash)

def tip : List (Header Hash) → Header Hash
  | [] => anchor.header
  | header :: _ => header

def tipHeight (blocks : List (Header Hash)) : ℕ := anchor.height + blocks.length

def times (blocks : List (Header Hash)) : List ℕ :=
  blocks.map Header.time ++ anchor.header.time :: anchor.earlierTimes

/-- The time of the first block of the current difficulty period. -/
def currentPeriodStart : List (Header Hash) → ℕ
  | [] => anchor.periodStart
  | header :: earlier =>
      if anchor.tipHeight (header :: earlier) % 2016 = 0 then header.time
      else currentPeriodStart earlier

def chainWork (blocks : List (Header Hash)) : ℕ :=
  anchor.work + (blocks.map fun header => difficulty (setCompact header.bits)).sum

/-- The rules for a header on top of a chain. -/
structure Next (blocks : List (Header Hash)) (header : Header Hash) : Prop where
  parent : header.parent = (anchor.tip blocks).hash
  bits : header.bits = requiredBits (anchor.tipHeight blocks + 1) (anchor.tip blocks).bits
    (anchor.tip blocks).time (anchor.currentPeriodStart blocks)
  proofOfWork : header.number ≤ setCompact header.bits
  time : median 0 ((anchor.times blocks).take 11) < header.time

inductive Valid : List (Header Hash) → Prop
  | nil : Valid []
  | cons {header : Header Hash} {earlier : List (Header Hash)} (next : anchor.Next earlier header)
      (valid : Valid earlier) : Valid (header :: earlier)

/-- The data of the anchor is that of a chain with the given times, the newest first. -/
structure Real (history : List ℕ) : Prop where
  high : 250 ≤ anchor.height
  minTarget : 2 ^ 16 ≤ setCompact anchor.header.bits
  maxTarget : setCompact anchor.header.bits ≤ powLimit
  proofOfWork : anchor.header.number ≤ setCompact anchor.header.bits
  times : history.take 11 = anchor.header.time :: anchor.earlierTimes
  periodStart : history[anchor.height % 2016]? = some anchor.periodStart
  medians : ∀ time earlier, time :: earlier <:+ history → 11 ≤ earlier.length →
    median 0 (earlier.take 11) < time

variable {anchor} {blocks : List (Header Hash)} {header : Header Hash}

theorem times_eq_cons (blocks : List (Header Hash)) :
    anchor.times blocks = (anchor.tip blocks).time :: (anchor.times blocks).tail := by
  cases blocks with
  | nil => rfl
  | cons header earlier => rfl

theorem tail_times_cons (header : Header Hash) (earlier : List (Header Hash)) :
    (anchor.times (header :: earlier)).tail = anchor.times earlier := rfl

theorem chainWork_cons (header : Header Hash) (earlier : List (Header Hash)) :
    anchor.chainWork (header :: earlier) =
      anchor.chainWork earlier + difficulty (setCompact header.bits) := by
  simp only [chainWork, List.map_cons, List.sum_cons]
  omega

theorem requiredBits_size {height parentBits parentTime periodStart : ℕ}
    (size : parentBits / 2 ^ 24 ≤ 32) :
    requiredBits height parentBits parentTime periodStart / 2 ^ 24 ≤ 32 := by
  simp only [requiredBits]
  split
  · apply le_trans (@getCompact_size _ 28 _)
    · decide
    · exact lt_of_le_of_lt (min_le_right _ _) (by decide)
  · exact size

/-- No target of a valid chain is too long for 32 bytes. -/
theorem Valid.size (valid : anchor.Valid blocks) (size : anchor.header.bits / 2 ^ 24 ≤ 32) :
    (anchor.tip blocks).bits / 2 ^ 24 ≤ 32 := by
  induction valid with
  | nil => exact size
  | cons next valid ih =>
      simp only [tip]
      rw [next.bits]
      exact requiredBits_size ih

theorem Real.size {history : List ℕ} (real : anchor.Real history) :
    anchor.header.bits / 2 ^ 24 ≤ 32 := by
  by_contra long
  have minTarget := real.minTarget
  have maxTarget := real.maxTarget
  simp only [setCompact, if_neg (show ¬anchor.header.bits / 2 ^ 24 ≤ 3 by omega)]
    at minTarget maxTarget
  have positive : 0 < anchor.header.bits % 2 ^ 23 := by
    by_contra zero
    have none : anchor.header.bits % 2 ^ 23 = 0 := by omega
    rw [none, Nat.zero_mul] at minTarget
    omega
  have large : 256 ^ 28 ≤
      anchor.header.bits % 2 ^ 23 * 256 ^ (anchor.header.bits / 2 ^ 24 - 3) := by
    have exponent : 28 ≤ anchor.header.bits / 2 ^ 24 - 3 := by omega
    apply le_trans (Nat.pow_le_pow_right (by decide) exponent)
    exact Nat.le_mul_of_pos_left _ positive
  have limit : powLimit < 256 ^ 28 := by decide
  omega

end Anchor

end Bitcoin
