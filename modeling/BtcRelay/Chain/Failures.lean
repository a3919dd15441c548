import BtcRelay.Bitcoin.Targets
import BtcRelay.Program.Handlers

/-!
# How submissions fail

The failures that a submission loop can end with are those of the checks on one header
and the aborts of checked operations.
-/

namespace BtcRelay

open Exec

section Arithmetic

variable {allowed : Failure → Prop} (aborts : allowed .abort)

include aborts

theorem throws_divLoop (castedDiv : ℕ) {n : ℕ} (arr : List.Vector UInt8 n) (remainder : ℕ) :
    Throws allowed (divLoop castedDiv arr remainder) := by
  induction n generalizing remainder with
  | zero => exact Throws.ok _
  | succ n ih =>
      rw [divLoop]
      refine (Throws.fitsIn aborts _ _).bind fun val _ => ?_
      split
      · exact (Throws.abort aborts).bind fun _ aborted => absurd aborted abort_ne_ok
      · refine (Throws.fitsIn aborts _ _).bind fun next _ => ?_
        exact (ih arr.tail next).bind fun rest _ => Throws.ok _

theorem throws_nbitsToTarget (nbits : UInt32) : Throws allowed (nbitsToTarget nbits) :=
  (Throws.sub32 aborts _ _).bind fun _ _ => Throws.ok _

theorem throws_getDifficulty (target : Bytes32) : Throws allowed (getDifficulty target) := by
  refine (Throws.subUsize aborts _ _).bind fun shift _ => ?_
  refine Throws.bind ?_ fun num _ => (throws_divLoop aborts _ _ _).bind fun arr _ => Throws.ok _
  apply Throws.foldlM
  intro num i
  exact (Throws.index aborts _ _).bind fun byte _ => Throws.ok _

theorem throws_computeNewNbits (prevTime startTime : UInt32) (prevTarget : Bytes32) :
    Throws allowed (computeNewNbits prevTime startTime prevTarget) := by
  refine (Throws.sub32 aborts _ _).bind fun timeSpan _ => ?_
  simp only [mulInPlace_eq, ok_bind]
  refine (throws_divLoop aborts _ _ _).bind fun target _ => ?_
  split
  · exact Throws.ok _
  · exact Throws.ok _

theorem throws_hasCorrectDifficultyTarget (parent : CommittedBlockHeader) (nbits : UInt32) :
    Throws allowed (hasCorrectDifficultyTarget parent nbits) := by
  refine (Throws.add32 aborts _ _).bind fun height _ => ?_
  split
  · refine (throws_nbitsToTarget aborts _).bind fun target _ => ?_
    exact (throws_computeNewNbits aborts _ _ _).bind fun newNbits _ => Throws.ok _
  · exact Throws.ok _

theorem throws_nowTs (unixTimestamp : ℤ) : Throws allowed (nowTs unixTimestamp) := by
  rw [nowTs]
  split
  · exact Throws.ok _
  · exact Throws.abort aborts

theorem throws_getPosition (main : MainState) (blockHeight : UInt32) :
    Throws allowed (main.getPosition blockHeight) := by
  rw [MainState.getPosition]
  split
  · refine (Throws.sub32 aborts _ _).bind fun pos _ => ?_
    split
    · exact Throws.ok _
    · exact Throws.ok _
  · refine (Throws.sub32 aborts _ _).bind fun pos _ => ?_
    split
    · exact Throws.ok _
    · exact (Throws.sub32 aborts _ _).bind fun pos _ => Throws.ok _

theorem throws_getCommitment (main : MainState) (blockHeight : UInt32) :
    Throws allowed (main.getCommitment blockHeight) := by
  rw [MainState.getCommitment]
  split
  · exact Throws.ok _
  · refine (Throws.sub32 aborts _ _).bind fun oldest _ => ?_
    split
    · exact Throws.ok _
    · refine (throws_getPosition aborts main blockHeight).bind fun pos _ => ?_
      split
      · exact Throws.ok _
      · exact Throws.index aborts _ _

theorem throws_storeMain (main : MainState) (blockHeight : UInt32) (commitment : Bytes32) :
    Throws allowed (storeMain main blockHeight commitment) := by
  refine Throws.bind ?_ fun stored _ => Throws.ok _
  refine (throws_getPosition aborts main blockHeight).bind fun position _ => ?_
  split
  · exact Throws.ok _
  · refine (Throws.update aborts _ _ _).bind fun slots _ => ?_
    exact (Throws.add32 aborts _ _).bind fun totalBlocks _ => Throws.ok _

end Arithmetic

/-- The failures of the checks on a submitted header. -/
def HeaderFailure (failure : Failure) : Prop :=
  failure ∈ [Failure.abort, .relay .prevBlock, .relay .errDiffTarget, .relay .invalidHeaderTopic,
    .relay .errPowToolow, .relay .errTimestampToolow, .relay .errTimestampTooHigh]

theorem headerFailure_abort : HeaderFailure .abort := List.mem_cons_self

theorem throws_verifyHeader (rt : Runtime) (header : BlockHeader) (parent : CommittedBlockHeader)
    (topic : Pubkey) (unixTimestamp : ℤ) :
    Throws HeaderFailure (verifyHeader rt header parent topic unixTimestamp) := by
  have aborts := headerFailure_abort
  refine Throws.bind ?_ fun _ _ => ?_
  · rw [requireDifficultyTarget]
    split
    · exact Throws.ok _
    · refine (throws_hasCorrectDifficultyTarget aborts _ _).bind fun correct _ => ?_
      exact Throws.require _ (by simp [HeaderFailure])
  refine (Throws.add32 aborts _ _).bind fun height _ => ?_
  refine (Throws.require _ (by simp [HeaderFailure])).bind fun _ _ => ?_
  refine (throws_nbitsToTarget aborts _).bind fun target _ => ?_
  refine (Throws.require _ (by simp [HeaderFailure])).bind fun _ _ => ?_
  refine (Throws.require _ (by simp [HeaderFailure])).bind fun _ _ => ?_
  refine (throws_nowTs aborts _).bind fun now _ => ?_
  refine (Throws.add32 aborts _ _).bind fun latest _ => ?_
  refine (Throws.require _ (by simp [HeaderFailure])).bind fun _ _ => ?_
  refine (Throws.add32 aborts _ _).bind fun blockheight _ => ?_
  refine (throws_getDifficulty aborts _).bind fun difficulty _ => ?_
  rw [addInPlace_eq, ok_bind]
  exact Throws.ok _

theorem throws_submitHeaders (rt : Runtime) (ctx : Context)
    (event : Bytes32 → Bytes32 → CommittedBlockHeader → Event) (data : List BlockHeader)
    (base : CommittedBlockHeader) (blockHeight : UInt32) (main : MainState) :
    Throws HeaderFailure (submitHeaders rt ctx storeMain event data base blockHeight main) := by
  have aborts := headerFailure_abort
  apply Throws.foldlM
  rintro progress ⟨header, topic⟩
  refine (Throws.require _ (by simp [HeaderFailure])).bind fun _ _ => ?_
  refine (Throws.add32 aborts _ _).bind fun blockHeight _ => ?_
  refine (throws_verifyHeader _ _ _ _ _).bind fun verified _ => ?_
  exact (throws_storeMain aborts _ _ _).bind fun account _ => Throws.ok _

end BtcRelay
