import BtcRelay.Network.Replay

/-!
# Completeness of the light client

A header that the rules of the main network allow on top of a chain is accepted by a relay
that follows the chain, up to three limits of the program. The rules themselves do not
imply them: the times of a difficulty period may run backwards, and the program then
aborts at the retarget.
-/

namespace BtcRelay

open Exec BigEndian Bitcoin OrderStatistics

section

variable {rt : Runtime} {anchor : Anchor Bytes32} {blocks : List (Header Bytes32)}
  {parent : CommittedBlockHeader} {topic : Pubkey} {unixTimestamp : ℤ}

/-- What the program needs of a valid header besides the header rules: at a retarget the period
that ends did not run backwards, the target has at least three bytes and the height fits. -/
structure WithinLimits (anchor : Anchor Bytes32) (blocks : List (Header Bytes32))
    (header : Header Bytes32) : Prop where
  ordered : (anchor.tipHeight blocks + 1) % 2016 = 0 →
    anchor.currentPeriodStart blocks ≤ (anchor.tip blocks).time
  minTarget : 2 ^ 16 ≤ setCompact header.bits
  height : anchor.tipHeight blocks + 1 < 2 ^ 32

/-- A valid next header is accepted exactly when it is within the program's limits. -/
theorem verifyHeader_isOk_iff {history : List ℕ} {header : BlockHeader}
    (mainnet : rt.bitcoinTestnet = false) (real : anchor.Real history)
    (valid : anchor.Valid blocks) (represents : parent.Represents rt anchor blocks)
    (next : anchor.Next blocks (header.toHeader rt))
    (indexed : headerTopic rt (header.getBlockHash rt) = topic)
    (clock : 0 ≤ unixTimestamp ∧ unixTimestamp < 2 ^ 32 - 14400)
    (early : (header.timestamp.toNat : ℤ) < unixTimestamp + 14400) :
    (∃ result, verifyHeader rt header parent topic unixTimestamp = .ok result) ↔
      WithinLimits anchor blocks (header.toHeader rt) := by
  constructor
  · rintro ⟨⟨child, blockHash⟩, accepted⟩
    rcases verifyHeader_eq_ok_iff.mp accepted with ⟨checks, rfl, _⟩
    rcases hasCorrectDifficultyTarget_eq_ok_iff.mp (checks.nbits mainnet) with
      ⟨height, _, ordered⟩
    rcases checks.work with ⟨target, difficulty, decoded, _, quotient, _⟩
    rw [represents.height] at height ordered
    rw [represents.time, represents.periodStart] at ordered
    exact ⟨fun boundary => (ordered boundary).1, ((getDifficulty_eq_ok_iff decoded).mp quotient).1,
      height⟩
  · rintro ⟨ordered, minTarget, height⟩
    have parentSize := valid.size real.size
    have size := (valid.cons next).size real.size
    have bits : hasCorrectDifficultyTarget parent header.nbits = .ok true := by
      apply hasCorrectDifficultyTarget_eq_ok_iff.mpr
      rw [represents.height, represents.bits, represents.time, represents.periodStart]
      exact ⟨height, next.bits, fun boundary => ⟨ordered boundary, parentSize⟩⟩
    have median : isLargerThanMedian parent.prevBlockTimestamps parent.header.timestamp
        header.timestamp = true := by
      apply (isLargerThanMedian_iff _ _ _).mpr
      have median := next.time
      rw [← represents.window] at median
      exact median
    rw [← represents.height] at height
    have checks := headerChecks_commit (fun _ => bits) size minTarget next.proofOfWork median
      ⟨clock.1, by omega, early⟩ height
    rw [indexed] at checks
    exact ⟨_, verifyHeader_eq_ok_iff.mpr ⟨checks, rfl, rfl⟩⟩

end

section

open Sample

/-- The times of blocks at regular intervals, the newest first. -/
def regularTimes (latest interval count : ℕ) : List ℕ :=
  (List.range count).map fun age => latest - interval * age

theorem pairwise_regularTimes {latest interval count : ℕ} (positive : 0 < interval)
    (enough : interval * count ≤ latest) :
    (regularTimes latest interval count).Pairwise (· > ·) := by
  rw [regularTimes, List.pairwise_map]
  apply List.pairwise_lt_range.imp_of_mem
  intro younger older _ inRange ordered
  have product := Nat.mul_lt_mul_of_pos_left ordered positive
  have bound := Nat.mul_lt_mul_of_pos_left (List.mem_range.mp inRange) positive
  omega

theorem le_of_mem_regularTimes {latest interval count time : ℕ}
    (member : time ∈ regularTimes latest interval count) : time ≤ latest := by
  rcases List.mem_map.mp member with ⟨age, _, rfl⟩
  exact Nat.sub_le _ _

def startHistory : List ℕ := regularTimes startTime.toNat 600 1100

theorem real_start : (start.toAnchor mainnet).Real startHistory where
  high := by decide
  minTarget := by decide
  maxTarget := by decide
  proofOfWork := of_decide_eq_true (by decide +kernel)
  times := of_decide_eq_true (by decide +kernel)
  periodStart := of_decide_eq_true (by decide +kernel)
  medians := by
    apply medians_of_descending
    exact pairwise_regularTimes (by decide) (by decide)

theorem verifyHeader_isOk_iff_main1 :
    (∃ result, verifyHeader mainnet main1Header start
        (headerTopic mainnet (main1Header.getBlockHash mainnet)) 1721030000 = .ok result) ↔
      WithinLimits (start.toAnchor mainnet) [] (main1Header.toHeader mainnet) := by
  apply verifyHeader_isOk_iff rfl real_start .nil (start.represents_self mainnet)
  · exact ⟨of_decide_eq_true (by decide +kernel), by decide, of_decide_eq_true (by decide +kernel),
      of_decide_eq_true (by decide +kernel)⟩
  · rfl
  · decide
  · decide

/-- The times of a chain whose last period starts with a block that is ahead of those after it. -/
def backwardsHistory : List ℕ :=
  (regularTimes (startTime.toNat + 2015) 1 2100).take 2015 ++
    (startTime.toNat + 7200) :: (regularTimes (startTime.toNat + 2015) 1 2100).drop 2015

theorem real_backwards : (backwards.toAnchor mainnet).Real backwardsHistory where
  high := by decide
  minTarget := by decide
  maxTarget := by decide
  proofOfWork := of_decide_eq_true (by decide +kernel)
  times := of_decide_eq_true (by decide +kernel)
  periodStart := of_decide_eq_true (by decide +kernel)
  medians := by
    have descending : (regularTimes (startTime.toNat + 2015) 1 2100).Pairwise (· > ·) :=
      pairwise_regularTimes (by decide) (by decide)
    rw [← List.take_append_drop 2015 (regularTimes _ _ _)] at descending
    apply medians_of_outlier descending
    intro time member
    have bound := le_of_mem_regularTimes (List.mem_of_mem_drop member)
    omega

/-- The header that the rules require after a period that runs backwards is not accepted. -/
theorem verifyHeader_backwards :
    (backwards.toAnchor mainnet).Real backwardsHistory ∧
      (backwards.toAnchor mainnet).Next [] (retargetHeader.toHeader mainnet) ∧
      2 ^ 16 ≤ setCompact retargetHeader.nbits.toNat ∧
      (retargetHeader.timestamp.toNat : ℤ) < 1721030000 + 14400 ∧
      verifyHeader mainnet retargetHeader backwards
        (headerTopic mainnet (retargetHeader.getBlockHash mainnet)) 1721030000 = abort := by
  refine ⟨real_backwards, ?_, by decide, by decide, ?_⟩
  · exact ⟨of_decide_eq_true (by decide +kernel), by decide, of_decide_eq_true (by decide +kernel),
      of_decide_eq_true (by decide +kernel)⟩
  · exact of_decide_eq_true (by decide +kernel)

end

end BtcRelay
