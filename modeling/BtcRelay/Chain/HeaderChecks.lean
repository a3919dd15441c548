import BtcRelay.Program.Handlers

/-!
# What an accepted header satisfies

`verifyHeader` is inverted once: a header is accepted exactly when `HeaderChecks`
holds of it, its parent and the resulting committed header. Every later argument about
accepted headers starts from these fields.
-/

namespace BtcRelay

open Exec BigEndian

/-- The checks of `verifyHeader` and the committed header they lead to. -/
structure HeaderChecks (rt : Runtime) (parent : CommittedBlockHeader) (topic : Pubkey)
    (unixTimestamp : ℤ) (child : CommittedBlockHeader) : Prop where
  nbits : rt.bitcoinTestnet = false →
    hasCorrectDifficultyTarget parent child.header.nbits = .ok true
  topic : headerTopic rt (child.header.getBlockHash rt) = topic
  work : ∃ target difficulty, nbitsToTarget child.header.nbits = .ok target ∧
    value (child.header.getBlockHash rt).reverse ≤ value target ∧
    getDifficulty target = .ok difficulty ∧
    child.chainWork = ofNat 32 (value parent.chainWork + value difficulty)
  median : isLargerThanMedian parent.prevBlockTimestamps parent.header.timestamp
    child.header.timestamp = true
  clock : 0 ≤ unixTimestamp ∧ unixTimestamp + 14400 < 2 ^ 32 ∧
    (child.header.timestamp.toNat : ℤ) < unixTimestamp + 14400
  height : child.blockheight.toNat = parent.blockheight.toNat + 1
  lastDiffAdjustment : child.lastDiffAdjustment =
    if shouldDiffAdjust child.blockheight then child.header.timestamp
    else parent.lastDiffAdjustment
  prevBlockTimestamps : child.prevBlockTimestamps =
    shiftTimestamps parent.prevBlockTimestamps parent.header.timestamp

theorem nowTs_eq_ok_iff {unixTimestamp : ℤ} {now : UInt32} :
    nowTs unixTimestamp = .ok now ↔ (now.toNat : ℤ) = unixTimestamp := by
  have bound := now.toNat_lt
  simp only [nowTs]
  split
  · rename_i inRange
    have small : unixTimestamp.toNat < 2 ^ 32 := by omega
    rw [Except.ok.injEq, ← UInt32.toNat_inj, UInt32.toNat_ofNat_of_lt' small]
    omega
  · simp only [abort_ne_ok, false_iff]
    omega

theorem requireDifficultyTarget_eq_ok_iff {rt : Runtime} {parent : CommittedBlockHeader}
    {nbits : UInt32} {result : Unit} :
    requireDifficultyTarget rt parent nbits = .ok result ↔
      (rt.bitcoinTestnet = false → hasCorrectDifficultyTarget parent nbits = .ok true) := by
  simp only [requireDifficultyTarget]
  split <;> simp_all

theorem verifyHeader_eq_ok_iff {rt : Runtime} {header : BlockHeader}
    {parent child : CommittedBlockHeader} {topic : Pubkey} {unixTimestamp : ℤ}
    {blockHash : Bytes32} :
    verifyHeader rt header parent topic unixTimestamp = .ok (child, blockHash) ↔
      HeaderChecks rt parent topic unixTimestamp child ∧ child.header = header ∧
        blockHash = header.getBlockHash rt := by
  have future : MAX_FUTURE_BLOCKTIME.toNat = 14400 := rfl
  have one : UInt32.toNat 1 = 1 := rfl
  simp only [verifyHeader, addInPlace_eq, bind_eq_ok_iff, require_eq_ok_iff,
    requireDifficultyTarget_eq_ok_iff, add32_eq_ok_iff, nowTs_eq_ok_iff, lteArr_iff,
    Except.ok.injEq, Prod.mk.injEq, exists_eq_left', UInt32.lt_iff_toNat_lt, future, one]
  constructor
  · rintro ⟨_, nbits, height, heightEq, _, topicEq, target, decoded, _, enoughWork, _, median,
      now, nowEq, latest, latestEq, _, early, blockheight, blockheightEq, difficulty, quotient,
      rfl, rfl⟩
    have sameHeight : height = blockheight := by
      rw [← UInt32.toNat_inj, heightEq, blockheightEq]
    have latestBound := latest.toNat_lt
    have clock : 0 ≤ unixTimestamp ∧ unixTimestamp + 14400 < 2 ^ 32 ∧
        (header.timestamp.toNat : ℤ) < unixTimestamp + 14400 := by omega
    exact ⟨{
      nbits
      topic := topicEq
      work := ⟨target, difficulty, decoded, enoughWork, quotient, rfl⟩
      median
      clock
      height := blockheightEq
      lastDiffAdjustment := by rw [sameHeight]
      prevBlockTimestamps := rfl }, rfl, rfl⟩
  · rintro ⟨checks, rfl, rfl⟩
    rcases checks.work with ⟨target, difficulty, decoded, enoughWork, quotient, chainWork⟩
    rcases checks.clock with ⟨nonnegative, inRange, early⟩
    have nowEq : (UInt32.ofNat unixTimestamp.toNat).toNat = unixTimestamp.toNat :=
      UInt32.toNat_ofNat_of_lt' (by simp only [UInt32.size]; omega)
    have latestEq : (UInt32.ofNat (unixTimestamp.toNat + 14400)).toNat =
        unixTimestamp.toNat + 14400 := UInt32.toNat_ofNat_of_lt' (by simp only [UInt32.size]; omega)
    refine ⟨(), checks.nbits, child.blockheight, checks.height, (), checks.topic, target, decoded,
      (), enoughWork, (), checks.median, UInt32.ofNat unixTimestamp.toNat, by omega,
      UInt32.ofNat (unixTimestamp.toNat + 14400), by omega, (), by omega, child.blockheight,
      checks.height, difficulty, quotient, ?_, rfl⟩
    rw [← chainWork, ← checks.lastDiffAdjustment, ← checks.prevBlockTimestamps]

end BtcRelay
