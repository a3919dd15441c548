import BtcRelay.Bridge.Payouts
import BtcRelay.Network.Replay

/-!
# Confirmations at the moment of a payout

`verify_small_tx` checks the inclusion of a transaction and pays in one step, so it pays
from the best chain. A large transaction is checked when its account is created and paid
later, without a second check: it is paid from the best chain if no move of the main chain
in between reaches below the block or leaves its range of heights.
-/

namespace BtcRelay

open Exec CircularBuffer History

/-- A block is committed in the main chain with a number of confirmations. -/
structure Confirmed (rt : Runtime) (main : MainState) (confirmations : UInt32)
    (block : CommittedBlockHeader) : Prop where
  commitment : main.getCommitment block.blockheight = .ok (block.getCommitHash rt)
  upTo : block.blockheight.toNat ≤ main.blockHeight.toNat
  depth : block.blockheight.toNat + confirmations.toNat ≤ main.blockHeight.toNat + 1

theorem requireConfirmed_eq_ok_iff {rt : Runtime} {main : MainState} {confirmations : UInt32}
    {block : CommittedBlockHeader} {result : Unit} :
    requireConfirmed rt main confirmations block = .ok result ↔
      Confirmed rt main confirmations block ∧
        main.blockHeight.toNat < block.blockheight.toNat + (2 ^ 32 - 1) := by
  have one : UInt32.toNat 1 = 1 := rfl
  simp only [requireConfirmed, bind_eq_ok_iff, require_eq_ok_iff, sub32_eq_ok_iff,
    add32_eq_ok_iff, ge_iff_le, UInt32.le_iff_toNat_le, one]
  constructor
  · rintro ⟨depth, depthEq, next, nextEq, _, enough, commitment, committed, same⟩
    have bound := next.toNat_lt
    rw [← same] at committed
    exact ⟨⟨committed, by omega, by omega⟩, by omega⟩
  · rintro ⟨⟨committed, upTo, depth⟩, bound⟩
    have difference : (UInt32.ofNat (main.blockHeight.toNat - block.blockheight.toNat)).toNat =
        main.blockHeight.toNat - block.blockheight.toNat :=
      UInt32.toNat_ofNat_of_lt' (by simp only [UInt32.size]; omega)
    have next : (UInt32.ofNat (main.blockHeight.toNat - block.blockheight.toNat + 1)).toNat =
        main.blockHeight.toNat - block.blockheight.toNat + 1 :=
      UInt32.toNat_ofNat_of_lt' (by simp only [UInt32.size]; omega)
    exact ⟨UInt32.ofNat (main.blockHeight.toNat - block.blockheight.toNat), by omega,
      UInt32.ofNat (main.blockHeight.toNat - block.blockheight.toNat + 1), by omega, (), by omega,
      _, committed, rfl⟩

/-- The height of the base of a submitted fork: that of its account, or of the header supplied
when the account is opened. -/
def forkBaseHeight (step : RelayStep) (forkId : UInt64) (parent : CommittedBlockHeader) : UInt32 :=
  match step.before.forkState forkId step.request.signer with
  | some forkState => forkState.startHeight
  | none => parent.blockheight

/-- Where a step that moves the main chain starts the new blocks, and where the new tip is. -/
def chainMove (step : RelayStep) : Option (ℕ × ℕ) :=
  match step.request.instruction with
  | .submitBlockHeaders data _ =>
      step.before.mainState.map fun main =>
        (main.blockHeight.toNat, main.blockHeight.toNat + data.length)
  | .submitShortForkHeaders data base =>
      some (base.blockheight.toNat, base.blockheight.toNat + data.length)
  | .submitForkHeaders data parent forkId _ =>
      match step.before.mainState with
      | some main =>
          if outweighs main parent data then
            some ((forkBaseHeight step forkId parent).toNat, parent.blockheight.toNat + data.length)
          else none
      | none => none
  | _ => none

/-- If the step moves the main chain, it stays above a block and keeps its confirmations, without
leaving the block behind. -/
def StaysAbove (block : CommittedBlockHeader) (confirmations : UInt32) (step : RelayStep) : Prop :=
  ∀ low high, chainMove step = some (low, high) → block.blockheight.toNat ≤ low ∧
    block.blockheight.toNat + confirmations.toNat ≤ high + 1 ∧
    high < block.blockheight.toNat + 250

section

variable {rt : Runtime} {headers : Set CommittedBlockHeader} {main next : MainState}
  {base tip block : CommittedBlockHeader} {blocks : List CommittedBlockHeader}
  {confirmations : UInt32}

/-- A block stays confirmed while the chain advances on top of it. -/
theorem confirmed_of_advances (advances : Advances rt main base blocks tip next)
    (held : main.buffer.read block.blockheight.toNat = some (block.getCommitHash rt))
    (high : 250 ≤ next.blockHeight.toNat)
    (low : block.blockheight.toNat ≤ base.blockheight.toNat)
    (depth : block.blockheight.toNat + confirmations.toNat ≤ next.blockHeight.toNat + 1)
    (recent : next.blockHeight.toNat < block.blockheight.toNat + 250) :
    Confirmed rt next confirmations block where
  commitment := by
    have height := advances.height
    apply getCommitment_of_read advances.inside high (by omega) recent
    rw [advances.moves.buffer, Buffer.read_writeAll_of_le advances.near low, held]
    rw [List.length_map, ← height]
    exact recent
  upTo := by
    have height := advances.height
    omega
  depth := depth

end

section

variable {rt : Runtime} {steps : List RelayStep} {step : RelayStep} {ledger : Ledger}
  {block : CommittedBlockHeader} {confirmations : UInt32}

theorem confirmed_of_staysAbove (run : RelayRun rt (step :: steps) ledger)
    (sound : SoundHashes rt (occurring (step :: steps)))
    (block_mem : block ∈ occurring (step :: steps))
    (stays : StaysAbove block confirmations step)
    (confirmed : ∃ main, step.before.mainState = some main ∧
      Confirmed rt main confirmations block) :
    ∃ main, step.after.mainState = some main ∧ Confirmed rt main confirmations block := by
  rcases confirmed with ⟨main, present, confirmed⟩
  rcases run.of_cons with ⟨before, _, _⟩
  have suffix := List.suffix_cons step steps
  have invariant :=
    (chainInvariant_of_run before (sound.mono (occurring_mono suffix))).main main present
  have included : { c | c ∈ accepted steps } ⊆ occurring (step :: steps) :=
    fun _ member => occurring_mono suffix (Or.inl member)
  rcases invariant.of_getCommitment sound included block_mem confirmed.commitment with
    ⟨block_accepted, upTo, _, atLeast, held⟩
  have block_high := invariant.high atLeast block block_accepted
  have move {next : MainState} {base tip : CommittedBlockHeader}
      {blocks : List CommittedBlockHeader} (advances : Advances rt main base blocks tip next)
      (moved : chainMove step = some (base.blockheight.toNat, next.blockHeight.toNat)) :
      Confirmed rt next confirmations block := by
    rcases stays _ _ moved with ⟨low, depth, recent⟩
    have height := advances.height
    exact confirmed_of_advances advances held (by omega) low depth recent
  cases mainStep_of_run run sound with
  | created _ absent =>
      rw [present] at absent
      cases absent
  | unmoved _ unchanged =>
      rw [present] at unchanged
      exact ⟨main, unchanged, confirmed⟩
  | kept _ here updated =>
      cases present.symm.trans here
      exact ⟨_, updated, confirmed.1, confirmed.2, confirmed.3⟩
  | committed instruction here updated _ advances length =>
      cases present.symm.trans here
      refine ⟨_, updated, move advances ?_⟩
      have height := advances.height
      rcases instruction with ⟨instruction, isTip⟩ | ⟨instruction, _⟩
      · simp only [chainMove, instruction, present, Option.map_some, height, length,
          isTip.blockHeight]
      · simp only [chainMove, instruction, height, length]
  | @adopted _ next data base parent tip earlier forkId init instruction here updated outweighing
      _ _ parent_eq advances length account =>
      cases present.symm.trans here
      refine ⟨_, updated, move advances ?_⟩
      have baseHeight : forkBaseHeight step forkId parent = base.blockheight := by
        rcases account with ⟨rfl, absent, _, _⟩ | ⟨forkState, found, fork, _⟩
        · simp only [forkBaseHeight, absent]
          rw [parent_eq]
          rfl
        · simp only [forkBaseHeight, found]
          exact fork.startHeight
      simp only [chainMove, instruction, present, outweighing, if_true, baseHeight,
        advances.height_of_parent parent_eq length]

theorem confirmed_of_run {between : List RelayStep}
    (run : RelayRun rt (between ++ step :: steps) ledger)
    (sound : SoundHashes rt (occurring (between ++ step :: steps)))
    (block_mem : block ∈ occurring (step :: steps))
    (stays : ∀ other ∈ between, StaysAbove block confirmations other)
    (confirmed : ∃ main, step.after.mainState = some main ∧
      Confirmed rt main confirmations block) :
    ∃ main, ledger.mainState = some main ∧ Confirmed rt main confirmations block := by
  induction between generalizing ledger with
  | nil =>
      rw [run.of_cons.2.2]
      exact confirmed
  | cons last rest ih =>
      rcases History.Run.of_cons run with ⟨before, _, same⟩
      have suffix := List.suffix_append [last] (rest ++ step :: steps)
      have here := ih before (sound.mono (occurring_mono suffix))
        (fun other member => stays other (List.mem_cons_of_mem _ member))
      rw [same]
      exact confirmed_of_staysAbove run sound
        (occurring_mono (List.suffix_append (last :: rest) _) block_mem)
        (stays last List.mem_cons_self) here

end

/-- The inclusion check of a large transaction: its id, the confirmations and the block. -/
def Instruction.checked? : Instruction → Option (Bytes32 × UInt32 × CommittedBlockHeader)
  | .initBigTxVerify txId _ confirmations _ _ block => some (txId, confirmations, block)
  | _ => none

/-- The step that creates the account of a large transaction, with the block that the inclusion
is checked against. -/
def ChecksTx (step : RelayStep) (txId : Bytes32) (confirmations : UInt32)
    (block : CommittedBlockHeader) : Prop :=
  step.request.instruction.checked? = some (txId, confirmations, block)
deriving Decidable

/-- A payout is made from the best chain: its block is confirmed when the lamports move. -/
structure PaysConfirmed (rt : Runtime) (step : RelayStep) (earlier : List RelayStep) : Prop where
  small : ∀ txBytes confirmations txIndex reversedMerkleProof block mintReceiver,
    step.request.instruction = .verifySmallTx txBytes confirmations txIndex reversedMerkleProof
      block mintReceiver →
    ∃ main, step.before.mainState = some main ∧ Confirmed rt main confirmations block
  checked : ∀ txId mintReceiver,
    step.request.instruction = .finalizeTxProcessing txId mintReceiver →
    ∃ check ∈ earlier, ∃ confirmations block, ChecksTx check txId confirmations block
  large : ∀ txId mintReceiver, step.request.instruction = .finalizeTxProcessing txId mintReceiver →
    ∀ check ∈ earlier, ∀ confirmations block, ChecksTx check txId confirmations block →
      ∃ main, step.before.mainState = some main ∧ Confirmed rt main confirmations block

/-- Between the check of a large transaction and its payouts, the main chain moves only above the
block of the check and keeps it confirmed and in reach. -/
def StaysAboveChecked (steps : List RelayStep) : Prop :=
  ∀ payout between check earlier txId mintReceiver confirmations block,
    payout :: (between ++ check :: earlier) <:+ steps →
    payout.request.instruction = .finalizeTxProcessing txId mintReceiver →
    ChecksTx check txId confirmations block → ∀ step ∈ between, StaysAbove block confirmations step

section

variable {rt : Runtime} {steps earlier : List RelayStep} {step : RelayStep} {ledger : Ledger}
  {block : CommittedBlockHeader} {txId : Bytes32} {confirmations : UInt32}

theorem confirmed_of_verifySmallTx {txBytes : List UInt8} {txIndex : UInt32}
    {reversedMerkleProof : List Bytes32} {mintReceiver : Pubkey}
    (success : process rt step.before step.request = .ok (step.after, step.output))
    (instruction : step.request.instruction = .verifySmallTx txBytes confirmations txIndex
      reversedMerkleProof block mintReceiver) :
    ∃ main, step.before.mainState = some main ∧ Confirmed rt main confirmations block := by
  simp only [process, instruction, verifySmallTx, bind_eq_ok_iff, load_eq_ok_iff,
    requireConfirmed_eq_ok_iff] at success
  rcases success with ⟨main, present, _, _, _, _, _, ⟨_, ⟨confirmed, _⟩, _⟩, _⟩
  exact ⟨main, present, confirmed⟩

theorem checked?_eq_some_iff {instruction : Instruction} :
    instruction.checked? = some (txId, confirmations, block) ↔
      ∃ txSize txIndex reversedMerkleProof, instruction =
        .initBigTxVerify txId txSize confirmations txIndex reversedMerkleProof block := by
  cases instruction <;> simp [Instruction.checked?]

theorem confirmed_of_checksTx
    (success : process rt step.before step.request = .ok (step.after, step.output))
    (checks : ChecksTx step txId confirmations block) :
    ∃ main, step.after.mainState = some main ∧ Confirmed rt main confirmations block := by
  rcases checked?_eq_some_iff.mp checks with ⟨txSize, txIndex, reversedMerkleProof, instruction⟩
  simp only [process, instruction, initBigTxVerify, bind_eq_ok_iff, load_eq_ok_iff,
    requireConfirmed_eq_ok_iff, Except.ok.injEq, Prod.mk.injEq] at success
  rcases success with ⟨_, _, _, _, _, _, main, present, _, ⟨_, ⟨confirmed, _⟩, _⟩, _, _, same, _⟩
  refine ⟨main, ?_, confirmed⟩
  rw [← same]
  exact present

/-- The account of a transaction was there before, or the step checks the transaction. -/
theorem txAccount_of_process {before after : Ledger} {request : Request} {events : List Event}
    (success : process rt before request = .ok (after, events))
    (found : after.txAccount txId ≠ none) :
    before.txAccount txId ≠ none ∨ ∃ confirmations block,
      request.instruction.checked? = some (txId, confirmations, block) := by
  have setTx {other : Bytes32} {account : TxAccount}
      (found : (before.setTx other account).txAccount txId ≠ none) :
      txId = other ∨ before.txAccount txId ≠ none := by
    simp only [Ledger.setTx] at found
    split at found
    · rename_i same
      exact Or.inl same
    · exact Or.inr found
  generalize instruction : request.instruction = called at success
  cases called with
  | initBigTxVerify other txSize confirmations txIndex reversedMerkleProof block =>
      simp only [process, instruction, bind_eq_ok_iff, Except.ok.injEq, Prod.mk.injEq] at success
      rcases success with ⟨_, _, _, _, _, _, _, _, _, _, _, _, rfl, _⟩
      rcases setTx found with rfl | old
      · exact Or.inr ⟨confirmations, block, rfl⟩
      · exact Or.inl old
  | storeTxBytes other bytes =>
      simp only [process, instruction, bind_eq_ok_iff, load_eq_ok_iff, Except.ok.injEq,
        Prod.mk.injEq] at success
      rcases success with ⟨_, present, _, _, rfl, _⟩
      rcases setTx found with rfl | old
      · rw [present]
        exact Or.inl (by simp)
      · exact Or.inl old
  | deposit amount =>
      simp only [process, deposit, instruction, bind_eq_ok_iff, Except.ok.injEq,
        Prod.mk.injEq] at success
      rcases success with ⟨_, ⟨_, _, _, _, _, _, rfl⟩, rfl, _⟩
      exact Or.inl found
  | initializeRelay data blockHeight chainWork lastDiffAdjustment prevBlockTimestamps =>
      simp only [process, instruction, bind_eq_ok_iff, Except.ok.injEq, Prod.mk.injEq] at success
      rcases success with ⟨_, _, _, _, rfl, _⟩
      exact Or.inl found
  | submitBlockHeaders data commitedHeader =>
      simp only [process, instruction, bind_eq_ok_iff, Except.ok.injEq, Prod.mk.injEq] at success
      rcases success with ⟨_, _, _, _, rfl, _⟩
      exact Or.inl found
  | submitShortForkHeaders data commitedHeader =>
      simp only [process, instruction, bind_eq_ok_iff, Except.ok.injEq, Prod.mk.injEq] at success
      rcases success with ⟨_, _, _, _, rfl, _⟩
      exact Or.inl found
  | submitForkHeaders data commitedHeader forkId init =>
      simp only [process, instruction, bind_eq_ok_iff, Except.ok.injEq, Prod.mk.injEq] at success
      rcases success with ⟨_, _, _, _, rfl, _⟩
      exact Or.inl found
  | closeForkAccount forkId =>
      simp only [process, instruction, bind_eq_ok_iff, Except.ok.injEq, Prod.mk.injEq] at success
      rcases success with ⟨_, _, rfl, _⟩
      exact Or.inl found
  | verifySmallTx txBytes confirmations txIndex reversedMerkleProof commitedHeader mintReceiver =>
      simp only [process, instruction, bind_eq_ok_iff, Except.ok.injEq, Prod.mk.injEq] at success
      rcases success with ⟨_, _, _, _, _, _, _, _, rfl, _⟩
      exact Or.inl found
  | blockHeight value operation =>
      simp only [process, instruction, bind_eq_ok_iff, Except.ok.injEq, Prod.mk.injEq] at success
      rcases success with ⟨_, _, _, _, rfl, _⟩
      exact Or.inl found
  | finalizeTxProcessing other mintReceiver =>
      simp only [process, instruction, bind_eq_ok_iff, Except.ok.injEq, Prod.mk.injEq] at success
      rcases success with ⟨_, _, _, _, _, _, _, _, rfl, _⟩
      exact Or.inl found

theorem exists_checksTx_of_run (run : RelayRun rt steps ledger)
    (found : ledger.txAccount txId ≠ none) :
    ∃ check ∈ steps, ∃ confirmations block, ChecksTx check txId confirmations block := by
  induction run with
  | start fresh => exact absurd (fresh.txAccount txId) found
  | step run success ih =>
      rcases txAccount_of_process success found with
        old | ⟨confirmations, block, checks⟩
      · rcases ih old with ⟨check, member, checks⟩
        exact ⟨check, List.mem_cons_of_mem _ member, checks⟩
      · exact ⟨_, List.mem_cons_self, confirmations, block, checks⟩

/-- In a run whose moves of the main chain stay above the blocks of checked transactions until
these are paid, every payout is made from the best chain. -/
theorem paysConfirmed_of_staysAboveChecked (run : RelayRun rt steps ledger)
    (sound : SoundHashes rt (occurring steps)) (stays : StaysAboveChecked steps)
    (suffix : step :: earlier <:+ steps) : PaysConfirmed rt step earlier := by
  rcases suffix with ⟨later, rfl⟩
  rcases run.split with ⟨before, success, _⟩
  have suffix := List.suffix_append later (step :: earlier)
  refine ⟨?_, ?_, ?_⟩
  · intro txBytes confirmations txIndex proof block mintReceiver instruction
    exact confirmed_of_verifySmallTx success instruction
  · intro txId mintReceiver instruction
    have loaded := success
    simp only [process, instruction, bind_eq_ok_iff, load_eq_ok_iff] at loaded
    rcases loaded with ⟨account, found, _⟩
    exact exists_checksTx_of_run before (by rw [found]; simp)
  · intro txId mintReceiver instruction check member confirmations block checks
    rcases List.append_of_mem member with ⟨between, first, rfl⟩
    rcases before.split with ⟨_, checkSuccess, _⟩
    apply confirmed_of_run before
      (sound.mono (occurring_mono ((List.suffix_cons _ _).trans suffix)))
    · apply mem_occurring_of_commitedHeader?
      rcases checked?_eq_some_iff.mp checks with ⟨txSize, txIndex, proof, checked⟩
      rw [checked]
      rfl
    · exact stays step between check first txId mintReceiver confirmations block suffix instruction
        checks
    · exact confirmed_of_checksTx checkSuccess checks

/-- No move of the main chain after the first check of a transaction is one between a check and a
payout. -/
theorem staysAboveChecked_of_quiet {later : List RelayStep}
    (quiet : ∀ step ∈ later, chainMove step = none)
    (unchecked : ∀ step ∈ earlier, step.request.instruction.checked? = none) :
    StaysAboveChecked (later ++ earlier) := by
  intro payout between check first txId mintReceiver confirmations block suffix _ checks
  rcases suffix with ⟨front, split⟩
  have split : (front ++ payout :: between) ++ check :: first = later ++ earlier := by
    rw [List.append_assoc]
    exact split
  rcases List.append_eq_append_iff.mp split with ⟨_, laterEq, _⟩ | ⟨_, _, earlierEq⟩
  · intro step member low high moved
    have step_later : step ∈ later := by
      rw [laterEq]
      apply List.mem_append_left
      apply List.mem_append_right
      exact List.mem_cons_of_mem payout member
    rw [quiet step step_later] at moved
    cases moved
  · have check_earlier : check ∈ earlier := by
      rw [earlierEq]
      exact List.mem_append_right _ List.mem_cons_self
    rw [ChecksTx, unchecked check check_earlier] at checks
    cases checks

end

section

open Sample

theorem nonempty_replay_paidOnce : (replay mainnet paidOnce).1 ≠ [] :=
  of_decide_eq_true (by decide +kernel)

theorem paysConfirmed_paidOnce :
    PaysConfirmed mainnet ((replay mainnet paidOnce).1.head nonempty_replay_paidOnce)
      (replay mainnet paidOnce).1.tail := by
  have checked : hashesChecked mainnet [start, main1] (replay mainnet paidOnce).1 = true ∧
      (∀ step ∈ (replay mainnet paidOnce).1.take 3, chainMove step = none) ∧
      ∀ step ∈ (replay mainnet paidOnce).1.drop 3, step.request.instruction.checked? = none :=
    of_decide_eq_true (by decide +kernel)
  rcases checked with ⟨hashes, quiet, unchecked⟩
  have stays := staysAboveChecked_of_quiet quiet unchecked
  rw [List.take_append_drop] at stays
  apply paysConfirmed_of_staysAboveChecked (run_replay mainnet paidOnce)
  · exact (soundHashes_of_hashesChecked hashes).mono (occurring_subset_of_hashesChecked hashes)
  · exact stays
  · rw [List.cons_head_tail]

theorem nonempty_replay_paidOrphan : (replay mainnet paidOrphan).1 ≠ [] :=
  of_decide_eq_true (by decide +kernel)

/-- A deposit is paid although its block has been replaced since the check. -/
theorem not_paysConfirmed_paidOrphan :
    RelayRun mainnet (replay mainnet paidOrphan).1 (replay mainnet paidOrphan).2 ∧
      SoundHashes mainnet (occurring (replay mainnet paidOrphan).1) ∧
      ¬PaysConfirmed mainnet ((replay mainnet paidOrphan).1.head nonempty_replay_paidOrphan)
        (replay mainnet paidOrphan).1.tail := by
  -- the check of the upload is the fourth step of seven
  have checked : hashesChecked mainnet [start, main1, short1, short2]
        (replay mainnet paidOrphan).1 = true ∧
      ((replay mainnet paidOrphan).1.head nonempty_replay_paidOrphan).request.instruction =
        .finalizeTxProcessing depositTxid depositor ∧
      (∃ check ∈ (replay mainnet paidOrphan).1.tail, ChecksTx check depositTxid 1 main1) ∧
      ((replay mainnet paidOrphan).1.head nonempty_replay_paidOrphan).before.mainState.all
        (fun main => main.getCommitment main1.blockheight ≠ .ok (main1.getCommitHash mainnet)) =
          true :=
    of_decide_eq_true (by decide +kernel)
  rcases checked with ⟨hashes, finalizes, ⟨check, member, checks⟩, orphaned⟩
  refine ⟨run_replay mainnet paidOrphan, ?_, ?_⟩
  · exact (soundHashes_of_hashesChecked hashes).mono (occurring_subset_of_hashesChecked hashes)
  · intro pays
    rcases pays.large _ _ finalizes check member _ _ checks with ⟨main, present, confirmed⟩
    rw [present] at orphaned
    exact of_decide_eq_true orphaned confirmed.commitment

end

end BtcRelay
