import BtcRelay.Chain.Submission
import BtcRelay.Foundations.CircularBuffer

/-!
# The ring buffer of commitments

The ring buffer of the main state is a circular buffer of capacity 250: storing a
commitment is a write and reading one is a read, restricted to the 250 heights below
the tip. The stores of a submission loop and the copy of a fork are consecutive writes,
and change nothing but the ring.
-/

namespace BtcRelay

open Exec CircularBuffer

def MainState.buffer (main : MainState) : Buffer Bytes32 PRUNING_FACTOR where
  start := main.startHeight.toNat
  slots := main.blockCommitments

def MainState.withRing (main ring : MainState) : MainState :=
  { main with
    startHeight := ring.startHeight
    totalBlocks := ring.totalBlocks
    blockCommitments := ring.blockCommitments }

@[simp]
theorem withRing_withRing (main ring other : MainState) :
    (main.withRing ring).withRing other = main.withRing other := rfl

theorem getPosition_eq (main : MainState) (blockHeight : UInt32) :
    main.getPosition blockHeight = .ok (
      if main.startHeight.toNat + 250 ≤ blockHeight.toNat then 0
      else if blockHeight.toNat + 250 ≤ main.startHeight.toNat then 250
      else Buffer.slotOf 250 main.startHeight.toNat blockHeight.toNat) := by
  have capacity : PRUNING_FACTOR_U32.toNat = 250 := rfl
  simp only [MainState.getPosition, Buffer.slotOf, UInt32.le_iff_toNat_le]
  split
  · rename_i above
    have difference : sub32 blockHeight main.startHeight =
        .ok (blockHeight - main.startHeight) := by
      simp [sub32, UInt32.le_iff_toNat_le, above]
    have exact := UInt32.toNat_sub_of_le _ _ (UInt32.le_iff_toNat_le.mpr above)
    simp only [difference, ok_bind, capacity, exact]
    split
    · rw [if_pos (by omega)]
    · rw [if_neg (by omega), if_neg (by omega)]
  · rename_i below
    have lower : blockHeight ≤ main.startHeight := UInt32.le_iff_toNat_le.mpr (by omega)
    have difference : sub32 main.startHeight blockHeight =
        .ok (main.startHeight - blockHeight) := by
      simp [sub32, lower]
    have exact := UInt32.toNat_sub_of_le _ _ lower
    simp only [difference, ok_bind, capacity, exact]
    split
    · rw [if_neg (by omega), if_pos (by omega)]
    · have small : main.startHeight - blockHeight ≤ PRUNING_FACTOR_U32 := by
        rw [UInt32.le_iff_toNat_le, exact, capacity]
        omega
      have back : sub32 PRUNING_FACTOR_U32 (main.startHeight - blockHeight) =
          .ok (PRUNING_FACTOR_U32 - (main.startHeight - blockHeight)) := by
        simp [sub32, small]
      rw [back, ok_bind, UInt32.toNat_sub_of_le _ _ small, exact, capacity]
      rw [if_neg (by omega), if_neg (by omega)]

/-- Storing a commitment writes it to the buffer and changes nothing else. -/
theorem storeMain_spec {main next : MainState} {blockHeight : UInt32} {commitment : Bytes32}
    (stored : storeMain main blockHeight commitment = .ok next) :
    next = main.withRing next ∧ next.buffer = main.buffer.write blockHeight.toNat commitment := by
  simp only [storeMain, MainState.storeBlockCommitment, getPosition_eq, ok_bind] at stored
  by_cases past : main.startHeight.toNat + 250 ≤ blockHeight.toNat
  · rw [if_pos past] at stored
    simp only [show (0 : ℕ) ≠ PRUNING_FACTOR by decide, if_false, update_of_lt _
      (show 0 < PRUNING_FACTOR by decide), ok_bind, bind_eq_ok_iff, if_true,
      Except.ok.injEq] at stored
    rcases stored with ⟨_, ⟨total, _, rfl⟩, rfl⟩
    refine ⟨rfl, ?_⟩
    rw [Buffer.write_of_past (by exact past)]
    rfl
  · rw [if_neg past] at stored
    by_cases fallen : blockHeight.toNat + 250 ≤ main.startHeight.toNat
    · rw [if_pos fallen] at stored
      simp only [if_true, ok_bind, Except.ok.injEq] at stored
      subst stored
      exact ⟨rfl, (Buffer.write_of_fallen (by exact fallen)).symm⟩
    · have covers : main.buffer.Covers blockHeight.toNat := by
        constructor <;> simp only [MainState.buffer, PRUNING_FACTOR] <;> omega
      have slot := covers.slotOf_lt
      rw [if_neg fallen] at stored
      simp only [MainState.buffer] at slot
      simp only [slot.ne, if_false, update_of_lt _ slot, ok_bind, bind_eq_ok_iff,
        Except.ok.injEq] at stored
      rcases stored with ⟨_, ⟨total, _, rfl⟩, rfl⟩
      refine ⟨rfl, ?_⟩
      rw [Buffer.write_of_covers covers]
      -- the slot of the start is 0, so the start is rewritten with itself there
      have start : (if Buffer.slotOf 250 main.startHeight.toNat blockHeight.toNat = 0
          then blockHeight else main.startHeight) = main.startHeight := by
        split
        · rename_i zero
          apply UInt32.toNat_inj.mp
          simp only [Buffer.slotOf] at zero
          split at zero <;> omega
        · rfl
      simp only [MainState.buffer, start]

theorem storeAll_storeMain_spec {rt : Runtime} {main next : MainState}
    {blockHeight nextHeight : UInt32} {children : List CommittedBlockHeader}
    (stored : storeAll rt storeMain main blockHeight children = .ok (next, nextHeight)) :
    next = main.withRing next ∧
      next.buffer = main.buffer.writeAll blockHeight.toNat
        (children.map (CommittedBlockHeader.getCommitHash rt)) ∧
      nextHeight.toNat = blockHeight.toNat + children.length := by
  induction children generalizing main blockHeight with
  | nil =>
      simp only [storeAll, Except.ok.injEq, Prod.mk.injEq] at stored
      rcases stored with ⟨rfl, rfl⟩
      exact ⟨rfl, rfl, rfl⟩
  | cons child rest ih =>
      simp only [storeAll, bind_eq_ok_iff, add32_eq_ok_iff] at stored
      rcases stored with ⟨height, heightEq, middle, storedFirst, storedRest⟩
      rcases storeMain_spec storedFirst with ⟨ringFirst, writeFirst⟩
      rcases ih storedRest with ⟨ringRest, writeRest, lengthRest⟩
      have one : UInt32.toNat 1 = 1 := rfl
      rw [one] at heightEq
      refine ⟨?_, ?_, ?_⟩
      · rw [ringFirst, withRing_withRing] at ringRest
        exact ringRest
      · rw [writeRest, writeFirst, heightEq, List.map_cons, Buffer.writeAll]
      · rw [lengthRest, List.length_cons]
        omega

/-- While the tip is within the buffer, the commitment of one of the last 250 heights is what
the buffer holds for it. -/
theorem getCommitment_eq {main : MainState}
    (inside : main.blockHeight.toNat < main.startHeight.toNat + 250) (blockHeight : UInt32) :
    main.getCommitment blockHeight =
      if main.blockHeight.toNat < blockHeight.toNat then .ok emptyArray
      else if main.blockHeight.toNat < 250 then abort
      else if blockHeight.toNat + 250 ≤ main.blockHeight.toNat then .ok emptyArray
      else .ok ((main.buffer.read blockHeight.toNat).getD emptyArray) := by
  have capacity : PRUNING_FACTOR_U32.toNat = 250 := rfl
  simp only [MainState.getCommitment, gt_iff_lt, UInt32.lt_iff_toNat_lt]
  split
  · rfl
  · rename_i upTo
    by_cases low : main.blockHeight.toNat < 250
    · have unreachable : ¬PRUNING_FACTOR_U32 ≤ main.blockHeight := by
        rw [UInt32.le_iff_toNat_le, capacity]
        omega
      simp only [sub32, if_pos low, if_neg unreachable, abort, error_bind]
    · have reachable : PRUNING_FACTOR_U32 ≤ main.blockHeight := by
        rw [UInt32.le_iff_toNat_le, capacity]
        omega
      have oldest : sub32 main.blockHeight PRUNING_FACTOR_U32 =
          .ok (main.blockHeight - PRUNING_FACTOR_U32) := by
        simp [sub32, reachable]
      simp only [if_neg low, oldest, ok_bind, UInt32.le_iff_toNat_le,
        UInt32.toNat_sub_of_le _ _ reachable, capacity, getPosition_eq]
      by_cases fallen : blockHeight.toNat + 250 ≤ main.blockHeight.toNat
      · rw [if_pos fallen, if_pos (by omega)]
      · have near : ¬main.startHeight.toNat + 250 ≤ blockHeight.toNat := by omega
        rw [if_neg fallen, if_neg (by omega), if_neg near]
        by_cases covers : main.buffer.Covers blockHeight.toNat
        · have slot := covers.slotOf_lt
          have recent : ¬blockHeight.toNat + 250 ≤ main.startHeight.toNat := by
            have := covers.1
            simp only [MainState.buffer, PRUNING_FACTOR] at this
            omega
          simp only [MainState.buffer] at slot
          rw [if_neg recent, if_neg slot.ne, index_of_lt _ slot, Buffer.read_of_covers covers]
          rfl
        · have early : blockHeight.toNat + 250 ≤ main.startHeight.toNat := by
            simp only [Buffer.Covers, MainState.buffer, PRUNING_FACTOR] at covers
            omega
          rw [if_pos early, if_pos rfl]
          simp only [Buffer.read, covers, dite_false, Option.getD_none]

/-- A nonempty commitment is that of one of the last 250 heights. -/
theorem read_of_getCommitment {main : MainState} {blockHeight : UInt32} {commitment : Bytes32}
    (inside : main.blockHeight.toNat < main.startHeight.toNat + 250)
    (committed : main.getCommitment blockHeight = .ok commitment)
    (nonempty : commitment ≠ emptyArray) :
    blockHeight.toNat ≤ main.blockHeight.toNat ∧
      main.blockHeight.toNat < blockHeight.toNat + 250 ∧ 250 ≤ main.blockHeight.toNat ∧
      main.buffer.read blockHeight.toNat = some commitment := by
  rw [getCommitment_eq inside] at committed
  split at committed
  · exact absurd (Except.ok.inj committed).symm nonempty
  · split at committed
    · exact absurd committed abort_ne_ok
    · split at committed
      · exact absurd (Except.ok.inj committed).symm nonempty
      · have held := Except.ok.inj committed
        cases found : main.buffer.read blockHeight.toNat with
        | none =>
            rw [found, Option.getD_none] at held
            exact absurd held.symm nonempty
        | some entry =>
            rw [found, Option.getD_some] at held
            refine ⟨by omega, by omega, by omega, ?_⟩
            rw [held]

theorem getCommitment_of_read {main : MainState} {blockHeight : UInt32} {commitment : Bytes32}
    (inside : main.blockHeight.toNat < main.startHeight.toNat + 250)
    (high : 250 ≤ main.blockHeight.toNat) (upTo : blockHeight.toNat ≤ main.blockHeight.toNat)
    (recent : main.blockHeight.toNat < blockHeight.toNat + 250)
    (found : main.buffer.read blockHeight.toNat = some commitment) :
    main.getCommitment blockHeight = .ok commitment := by
  rw [getCommitment_eq inside, if_neg (by omega), if_neg (by omega), if_neg (by omega), found,
    Option.getD_some]

end BtcRelay
