import BtcRelay.Bitcoin.HeaderChain
import BtcRelay.Bitcoin.Targets
import BtcRelay.Chain.Lineage

/-!
# The light client follows the header rules

A committed header carries what is needed to check the next one: it represents the chain
of headers that leads to it. The program accepts a header on top of it only if the header
rules of the main network allow it there, and the result represents the longer chain.
-/

namespace BtcRelay

open Exec BigEndian Bitcoin OrderStatistics

/-- What the header rules read of a block header. -/
def BlockHeader.toHeader (rt : Runtime) (header : BlockHeader) : Header Bytes32 where
  hash := header.getBlockHash rt
  parent := header.reversedPrevBlockhash
  number := value (header.getBlockHash rt).reverse
  bits := header.nbits.toNat
  time := header.timestamp.toNat

def BlockHeader.addedWork (header : BlockHeader) : ℕ := difficulty (setCompact header.nbits.toNat)

namespace CommittedBlockHeader

/-- The committed header of a header on top of a committed one. -/
def commit (parent : CommittedBlockHeader) (header : BlockHeader) : CommittedBlockHeader where
  chainWork := ofNat 32 (value parent.chainWork + header.addedWork)
  header
  lastDiffAdjustment :=
    if shouldDiffAdjust (parent.blockheight + 1) then header.timestamp
    else parent.lastDiffAdjustment
  blockheight := parent.blockheight + 1
  prevBlockTimestamps := shiftTimestamps parent.prevBlockTimestamps parent.header.timestamp

def earlierTimes (committed : CommittedBlockHeader) : List ℕ :=
  (committed.prevBlockTimestamps.toList.map UInt32.toNat).reverse

/-- A committed header as the start of a chain. -/
def toAnchor (rt : Runtime) (committed : CommittedBlockHeader) : Anchor Bytes32 where
  header := committed.header.toHeader rt
  height := committed.blockheight.toNat
  earlierTimes := committed.earlierTimes
  periodStart := committed.lastDiffAdjustment.toNat
  work := value committed.chainWork

/-- A committed header stands for the chain of headers that leads to it. -/
structure Represents (rt : Runtime) (anchor : Anchor Bytes32) (blocks : List (Header Bytes32))
    (committed : CommittedBlockHeader) : Prop where
  header : committed.header.toHeader rt = anchor.tip blocks
  height : committed.blockheight.toNat = anchor.tipHeight blocks
  earlierTimes : committed.earlierTimes = (anchor.times blocks).tail.take 10
  periodStart : committed.lastDiffAdjustment.toNat = anchor.currentPeriodStart blocks
  work : value committed.chainWork = anchor.chainWork blocks % 2 ^ 256

theorem length_earlierTimes (committed : CommittedBlockHeader) :
    committed.earlierTimes.length = 10 := by
  simp [earlierTimes]

theorem represents_self (rt : Runtime) (committed : CommittedBlockHeader) :
    committed.Represents rt (committed.toAnchor rt) [] where
  header := rfl
  height := rfl
  earlierTimes := by
    have length := committed.length_earlierTimes
    exact (List.take_of_length_le (le_of_eq length)).symm
  periodStart := rfl
  work := by
    have bound := value_lt committed.chainWork
    have words : (256 ^ 32 : ℕ) = 2 ^ 256 := by norm_num
    rw [words] at bound
    exact (Nat.mod_eq_of_lt bound).symm

end CommittedBlockHeader

/-- The loop counts the smaller timestamps. -/
theorem isLargerThanMedian_iff_count (arr : List.Vector UInt32 10)
    (additional currTimestamp : UInt32) :
    isLargerThanMedian arr additional currTimestamp = true ↔
      5 < ((additional :: arr.toList).map UInt32.toNat).countP (· < currTimestamp.toNat) := by
  have count : ∀ (times : List UInt32) (amt : ℕ),
      times.foldl (fun amt time => if currTimestamp > time then amt + 1 else amt) amt =
        amt + (times.map UInt32.toNat).countP (· < currTimestamp.toNat) := by
    intro times
    induction times with
    | nil => intro amt; rfl
    | cons time rest ih =>
        intro amt
        rw [List.foldl_cons, ih, List.map_cons, List.countP_cons]
        simp only [gt_iff_lt, UInt32.lt_iff_toNat_lt, decide_eq_true_eq]
        split <;> omega
  rw [List.map_cons, List.countP_cons]
  simp only [isLargerThanMedian, count]
  simp only [gt_iff_lt, UInt32.lt_iff_toNat_lt, decide_eq_true_eq]
  split <;> omega

/-- Counting the smaller timestamps decides whether a timestamp is past their median. -/
theorem isLargerThanMedian_iff (arr : List.Vector UInt32 10) (additional currTimestamp : UInt32) :
    isLargerThanMedian arr additional currTimestamp = true ↔
      median 0 (additional.toNat :: (arr.toList.map UInt32.toNat).reverse) <
        currTimestamp.toNat := by
  have length : (additional.toNat :: (arr.toList.map UInt32.toNat).reverse).length / 2 = 5 := by
    simp
  rw [median_lt_iff (List.cons_ne_nil _ _), length, List.countP_cons, List.countP_reverse,
    isLargerThanMedian_iff_count, List.map_cons, List.countP_cons]

/-- A timestamp is accepted exactly if it is past the sixth smallest of the eleven, in whatever
order they are held, and a later timestamp is accepted as well. -/
theorem isLargerThanMedian_rank (arr : List.Vector UInt32 10)
    (additional currTimestamp : UInt32) :
    (∃ sixth, (((additional :: arr.toList).map UInt32.toNat).insertionSort (· ≤ ·))[5]? =
        some sixth ∧
      (isLargerThanMedian arr additional currTimestamp = true ↔ sixth < currTimestamp.toNat)) ∧
    (∀ (other : List.Vector UInt32 10) (otherAdditional : UInt32),
      (otherAdditional :: other.toList).Perm (additional :: arr.toList) →
      isLargerThanMedian other otherAdditional currTimestamp =
        isLargerThanMedian arr additional currTimestamp) ∧
    ∀ later : UInt32, currTimestamp ≤ later →
      isLargerThanMedian arr additional currTimestamp = true →
      isLargerThanMedian arr additional later = true := by
  refine ⟨?_, ?_, ?_⟩
  · obtain ⟨sorted, sortedEq⟩ : ∃ sorted, sorted =
        ((additional :: arr.toList).map UInt32.toNat).insertionSort (· ≤ ·) := ⟨_, rfl⟩
    have inRange : 5 < sorted.length := by
      rw [sortedEq, List.length_insertionSort, List.length_map, List.length_cons,
        List.Vector.toList_length]
      decide
    have ordered : sorted.Pairwise (· ≤ ·) := by
      rw [sortedEq]
      exact List.pairwise_insertionSort (· ≤ ·) _
    have same : sorted.countP (· < currTimestamp.toNat) =
        ((additional :: arr.toList).map UInt32.toNat).countP (· < currTimestamp.toNat) := by
      rw [sortedEq]
      exact (List.perm_insertionSort (· ≤ ·) _).countP_eq _
    refine ⟨sorted[5], ?_, ?_⟩
    · rw [← sortedEq]
      exact List.getElem?_eq_getElem inRange
    · rw [isLargerThanMedian_iff_count, getElem_lt_iff_of_pairwise ordered _ inRange, same]
  · intro other otherAdditional permuted
    have same := (permuted.map UInt32.toNat).countP_eq (· < currTimestamp.toNat)
    rw [Bool.eq_iff_iff, isLargerThanMedian_iff_count, isLargerThanMedian_iff_count, same]
  · intro later upTo accepted
    rw [isLargerThanMedian_iff_count] at accepted ⊢
    apply lt_of_lt_of_le accepted
    apply List.countP_mono_left
    intro time _ below
    have times : time < currTimestamp.toNat := of_decide_eq_true below
    exact decide_eq_true (lt_of_lt_of_le times (UInt32.le_iff_toNat_le.mp upTo))

theorem earlierTimes_shift (arr : List.Vector UInt32 10) (timestamp : UInt32) :
    ((shiftTimestamps arr timestamp).toList.map UInt32.toNat).reverse =
      timestamp.toNat :: (arr.toList.map UInt32.toNat).reverse.take 9 := by
  have length : (arr.toList.map UInt32.toNat).reverse.length = 10 := by simp
  have shifted : (shiftTimestamps arr timestamp).toList = arr.toList.tail ++ [timestamp] := by
    rw [shiftTimestamps, List.Vector.snoc, List.Vector.toList_append, List.Vector.toList_tail]
    rfl
  rw [shifted, List.map_append, List.reverse_append, List.map_tail, ← List.dropLast_reverse,
    List.dropLast_eq_take, length]
  rfl

section

variable {rt : Runtime} {anchor : Anchor Bytes32} {blocks : List (Header Bytes32)}
  {parent child : CommittedBlockHeader} {topic : Pubkey} {unixTimestamp : ℤ}

theorem CommittedBlockHeader.toNat_blockheight_commit {header : BlockHeader}
    (height : parent.blockheight.toNat + 1 < 2 ^ 32) :
    (parent.commit header).blockheight.toNat = parent.blockheight.toNat + 1 := by
  have one : UInt32.toNat 1 = 1 := rfl
  simp only [commit, UInt32.toNat_add, one]
  exact Nat.mod_eq_of_lt height

/-- The checks, in terms of the header's compact target. -/
theorem headerChecks_commit {header : BlockHeader}
    (nbits : rt.bitcoinTestnet = false → hasCorrectDifficultyTarget parent header.nbits = .ok true)
    (size : header.nbits.toNat / 2 ^ 24 ≤ 32) (minTarget : 2 ^ 16 ≤ setCompact header.nbits.toNat)
    (proofOfWork : value (header.getBlockHash rt).reverse ≤ setCompact header.nbits.toNat)
    (median : isLargerThanMedian parent.prevBlockTimestamps parent.header.timestamp
      header.timestamp = true)
    (clock : 0 ≤ unixTimestamp ∧ unixTimestamp + 14400 < 2 ^ 32 ∧
      (header.timestamp.toNat : ℤ) < unixTimestamp + 14400)
    (height : parent.blockheight.toNat + 1 < 2 ^ 32) :
    HeaderChecks rt parent (headerTopic rt (header.getBlockHash rt)) unixTimestamp
      (parent.commit header) := by
  rcases exists_nbitsToTarget size with ⟨target, decoded⟩
  have valueEq := (nbitsToTarget_eq_ok_iff.mp decoded).2
  rcases getDifficulty_of_le (le_of_le_of_eq minTarget valueEq.symm) with ⟨difficulty, quotient, _⟩
  have work := ((getDifficulty_eq_ok_iff decoded).mp quotient).2
  refine ⟨nbits, rfl, ⟨target, difficulty, decoded, ?_, quotient, ?_⟩, median, clock, ?_, rfl, rfl⟩
  · exact le_of_le_of_eq proofOfWork valueEq.symm
  · rw [work]
    rfl
  · exact parent.toNat_blockheight_commit height

theorem HeaderChecks.eq_commit (checks : HeaderChecks rt parent topic unixTimestamp child) :
    child = parent.commit child.header := by
  rcases checks.work with ⟨target, difficulty, decoded, _, quotient, chainWork⟩
  have work := ((getDifficulty_eq_ok_iff decoded).mp quotient).2
  have height : child.blockheight = parent.blockheight + 1 := by
    have bound := child.blockheight.toNat_lt
    have heightEq := checks.height
    apply UInt32.toNat_inj.mp
    rw [heightEq]
    exact (@CommittedBlockHeader.toNat_blockheight_commit parent child.header (by omega)).symm
  have adjustment := checks.lastDiffAdjustment
  have timestamps := checks.prevBlockTimestamps
  rw [height] at adjustment
  rw [work] at chainWork
  cases child
  simp only at chainWork height adjustment timestamps
  subst chainWork height adjustment timestamps
  rfl

namespace CommittedBlockHeader.Represents

theorem bits (represents : parent.Represents rt anchor blocks) :
    parent.header.nbits.toNat = (anchor.tip blocks).bits := by
  rw [← represents.header]
  rfl

theorem time (represents : parent.Represents rt anchor blocks) :
    parent.header.timestamp.toNat = (anchor.tip blocks).time := by
  rw [← represents.header]
  rfl

theorem window (represents : parent.Represents rt anchor blocks) :
    parent.header.timestamp.toNat :: parent.earlierTimes = (anchor.times blocks).take 11 := by
  rw [Anchor.times_eq_cons, List.take_succ_cons, represents.time, represents.earlierTimes]

end CommittedBlockHeader.Represents

theorem Extends.next (extend : Extends rt parent child) (mainnet : rt.bitcoinTestnet = false)
    (represents : parent.Represents rt anchor blocks) :
    anchor.Next blocks (child.header.toHeader rt) := by
  rcases extend.checks with ⟨topic, unixTimestamp, checks⟩
  rcases hasCorrectDifficultyTarget_eq_ok_iff.mp (checks.nbits mainnet) with ⟨_, bits, _⟩
  rcases checks.work with ⟨target, difficulty, decoded, enoughWork, _, _⟩
  have median := (isLargerThanMedian_iff _ _ _).mp checks.median
  refine ⟨?_, ?_, ?_, ?_⟩
  · rw [← represents.header]
    exact extend.link.symm
  · rw [represents.bits, represents.time, represents.height, represents.periodStart] at bits
    exact bits
  · rw [(nbitsToTarget_eq_ok_iff.mp decoded).2] at enoughWork
    exact enoughWork
  · rw [← represents.window]
    exact median

theorem Extends.represents (extend : Extends rt parent child)
    (represents : parent.Represents rt anchor blocks) :
    child.Represents rt anchor (child.header.toHeader rt :: blocks) := by
  rcases extend.checks with ⟨topic, unixTimestamp, checks⟩
  rcases checks.work with ⟨target, difficulty, decoded, _, quotient, chainWork⟩
  have height : child.blockheight.toNat =
      anchor.tipHeight (child.header.toHeader rt :: blocks) := by
    rw [extend.height, represents.height]
    rfl
  refine ⟨rfl, height, ?_, ?_, ?_⟩
  · rw [Anchor.tail_times_cons, Anchor.times_eq_cons, CommittedBlockHeader.earlierTimes,
      checks.prevBlockTimestamps, earlierTimes_shift, ← CommittedBlockHeader.earlierTimes,
      represents.earlierTimes, represents.time, List.take_take]
    rfl
  · rw [checks.lastDiffAdjustment, Anchor.currentPeriodStart, ← height]
    simp only [shouldDiffAdjust_iff]
    split
    · rfl
    · exact represents.periodStart
  · have words : (256 ^ 32 : ℕ) = 2 ^ 256 := by norm_num
    rw [chainWork, value_ofNat, Anchor.chainWork_cons, represents.work, words,
      ((getDifficulty_eq_ok_iff decoded).mp quotient).2, Nat.mod_add_mod]
    rfl

end

end BtcRelay
