import BtcRelay.Bridge.Uploads
import BtcRelay.Chain.WorkBounds
import BtcRelay.Network.Locks

/-!
# What a payout rests on

The account of a large transaction holds what the run has stored for it, in order, since the
one instruction that created it after an inclusion check. So every payout, small or large,
rests on a check in the run that found the transaction in a block of the relay's chain, and
the block on the proof of work that leads to it from the initial one.
-/

namespace BtcRelay

open Exec History

/-- The size that an instruction creates the account of a transaction with. -/
def Instruction.created? (txId : Bytes32) : Instruction → Option UInt64
  | .initBigTxVerify id txSize _ _ _ _ => if id = txId then some txSize else none
  | _ => none

def Instruction.stored (txId : Bytes32) : Instruction → List UInt8
  | .storeTxBytes id bytes => if id = txId then bytes else []
  | _ => []

def createdSizes (txId : Bytes32) (steps : List RelayStep) : List UInt64 :=
  steps.filterMap fun step => step.request.instruction.created? txId

/-- What a run has stored for a transaction, in order. -/
def storedBytes (txId : Bytes32) (steps : List RelayStep) : List UInt8 :=
  steps.reverse.flatMap fun step => step.request.instruction.stored txId

/-- The account of a transaction, as the steps of a run have left it. -/
inductive Holds (txId : Bytes32) (steps : List RelayStep) : Option TxAccount → Prop
  | absent (created : createdSizes txId steps = []) (stored : storedBytes txId steps = []) :
      Holds txId steps none
  | present {txSize : UInt64} (created : createdSizes txId steps = [txSize])
      (fits : 8 + 4 + (storedBytes txId steps).length ≤ spaceFor txSize) :
      Holds txId steps (some ⟨spaceFor txSize, ⟨storedBytes txId steps⟩⟩)

/-- The step whose inclusion check a payout rests on: the payout itself, or the one that created the
account it pays from. -/
inductive Checks (payout check : RelayStep) (inclusion : Inclusion) (txId : Bytes32) : Prop
  | small {txBytes : List UInt8} {receiver : Pubkey} (same : check = payout)
      (calls : payout.request.instruction = inclusion.verifySmallTx txBytes receiver)
  | large {txSize : UInt64} {receiver : Pubkey}
      (calls : payout.request.instruction = .finalizeTxProcessing txId receiver)
      (created : check.request.instruction = inclusion.initBigTxVerify txId txSize)

/-- A step checks that a transaction is in a block: the block is one that the run has accepted in
the steps before, and it costs the proof of work of the chain that leads to it. -/
structure Backs (rt : Runtime) (earlier : List RelayStep) (check : RelayStep)
    (inclusion : Inclusion) (txId : Bytes32) : Prop where
  included : ∃ main, check.before.mainState = some main ∧ Included rt main inclusion txId
  accepted : inclusion.commitedHeader ∈ accepted earlier
  costs : ∃ start ∈ earlier, ∃ initial, start.request.instruction.initial? = some initial ∧
    Costs rt initial inclusion.commitedHeader

section

variable {rt : Runtime} {before after ledger : Ledger} {request : Request} {events : List Event}
  {txId : Bytes32} {steps earlier : List RelayStep} {step check : RelayStep} {receiver : Pubkey}
  {inclusion : Inclusion}

/-- What a step does to the account of a transaction. -/
inductive TxStep (rt : Runtime) (before after : Ledger) (request : Request) (txId : Bytes32) : Prop
  | create {inclusion : Inclusion} {txSize : UInt64}
      (calls : request.instruction = inclusion.initBigTxVerify txId txSize)
      (absent : before.txAccount txId = none)
      (included : ∃ main, before.mainState = some main ∧ Included rt main inclusion txId)
      (created : after.txAccount txId = some ⟨spaceFor txSize, ⟨[]⟩⟩)
  | store {bytes : List UInt8} {account : TxAccount}
      (calls : request.instruction = .storeTxBytes txId bytes)
      (found : before.txAccount txId = some account)
      (fits : 8 + 4 + (account.state.txBytes ++ bytes).length ≤ account.space)
      (stored : after.txAccount txId =
        some ⟨account.space, ⟨account.state.txBytes ++ bytes⟩⟩)
  | other (uncreated : request.instruction.created? txId = none)
      (unstored : request.instruction.stored txId = [])
      (unchanged : after.txAccount txId = before.txAccount txId)

theorem txStep_of_process (success : process rt before request = .ok (after, events))
    (txId : Bytes32) : TxStep rt before after request txId := by
  have frame (readonly : AccountKey.txAccount txId ∉ request.accounts.writable) :
      after.txAccount txId = before.txAccount txId := read_of_process success readonly
  cases instruction : request.instruction with
  | initBigTxVerify id txSize confirmations txIndex reversedMerkleProof commitedHeader =>
      by_cases same : id = txId
      · subst same
        have calls : request.instruction = Inclusion.initBigTxVerify
            ⟨confirmations, txIndex, reversedMerkleProof, commitedHeader⟩ id txSize := instruction
        rcases (process_initBigTxVerify_iff calls).mp success with
          ⟨absent, _, included, rfl, _⟩
        exact .create calls absent included txAccount_setTx
      · apply TxStep.other
        · simp [instruction, Instruction.created?, same]
        · simp [instruction, Instruction.stored]
        · apply frame
          simp [Request.accounts, instruction, Ne.symm same]
  | storeTxBytes id bytes =>
      by_cases same : id = txId
      · subst same
        rcases (process_storeTxBytes_iff instruction).mp success with
          ⟨account, found, fits, rfl, _⟩
        exact .store instruction found fits txAccount_setTx
      · apply TxStep.other
        · simp [instruction, Instruction.created?]
        · simp [instruction, Instruction.stored, same]
        · apply frame
          simp [Request.accounts, instruction, Ne.symm same]
  | finalizeTxProcessing id mintReceiver =>
      rcases (process_finalizeTxProcessing_iff instruction).mp success with
        ⟨_, _, _, _, _, _, _, rfl, _⟩
      apply TxStep.other
      · simp [instruction, Instruction.created?]
      · simp [instruction, Instruction.stored]
      · rfl
  | _ =>
      apply TxStep.other
      · simp [instruction, Instruction.created?]
      · simp [instruction, Instruction.stored]
      · apply frame
        simp [Request.accounts, instruction]

theorem createdSizes_cons (step : RelayStep) (steps : List RelayStep) (txId : Bytes32) :
    createdSizes txId (step :: steps) =
      (step.request.instruction.created? txId).toList ++ createdSizes txId steps := by
  rw [createdSizes, List.filterMap_cons]
  cases step.request.instruction.created? txId with
  | none => rfl
  | some txSize => rfl

theorem storedBytes_cons (step : RelayStep) (steps : List RelayStep) (txId : Bytes32) :
    storedBytes txId (step :: steps) =
      storedBytes txId steps ++ step.request.instruction.stored txId := by
  simp only [storedBytes, List.reverse_cons, List.flatMap_append, List.flatMap_singleton]

theorem Holds.next (holds : Holds txId steps (step.before.txAccount txId))
    (txStep : TxStep rt step.before step.after step.request txId) :
    Holds txId (step :: steps) (step.after.txAccount txId) := by
  cases txStep with
  | @create inclusion txSize calls absent _ made =>
      rw [absent] at holds
      rw [made]
      cases holds with
      | absent created stored =>
          have size : createdSizes txId (step :: steps) = [txSize] := by
            simp [createdSizes_cons, calls, Inclusion.initBigTxVerify, Instruction.created?, created]
          have nothing : storedBytes txId (step :: steps) = [] := by
            simp [storedBytes_cons, calls, Inclusion.initBigTxVerify, Instruction.stored, stored]
          rw [← nothing]
          apply Holds.present size
          simp [nothing, spaceFor]
  | @store bytes account calls found fits appended =>
      rw [found] at holds
      rw [appended]
      have bytesEq : storedBytes txId (step :: steps) = storedBytes txId steps ++ bytes := by
        simp [storedBytes_cons, calls, Instruction.stored]
      generalize held : some account = contents at holds
      cases holds with
      | absent created stored => cases held
      | @present txSize created roomy =>
          cases held
          rw [← bytesEq] at fits ⊢
          apply Holds.present _ fits
          simp [createdSizes_cons, calls, Instruction.created?, created]
  | other uncreated unstored unchanged =>
      rw [unchanged]
      have sizes : createdSizes txId (step :: steps) = createdSizes txId steps := by
        rw [createdSizes_cons, uncreated]
        rfl
      have bytes : storedBytes txId (step :: steps) = storedBytes txId steps := by
        rw [storedBytes_cons, unstored, List.append_nil]
      generalize step.before.txAccount txId = account at holds
      cases holds with
      | absent created stored =>
          exact .absent (sizes.trans created) (bytes.trans stored)
      | present created fits =>
          rw [← bytes] at fits ⊢
          exact .present (sizes.trans created) fits

/-- In every run the account of a transaction is created at most once, and it holds all that has
been stored for its id, in order, within the space it was created with. -/
theorem holds_of_run (run : RelayRun rt steps ledger) (txId : Bytes32) :
    Holds txId steps (ledger.txAccount txId) := by
  induction run with
  | start fresh =>
      rw [fresh.txAccount]
      exact .absent rfl rfl
  | @step steps before after request output run success ih =>
      exact @Holds.next rt txId steps ⟨before, request, after, output⟩ ih
        (txStep_of_process success txId)

/-- The account of a transaction is there because a step has checked its inclusion. -/
theorem exists_inclusion_of_txAccount (run : RelayRun rt steps ledger)
    (found : ledger.txAccount txId ≠ none) :
    ∃ check earlier inclusion txSize, check :: earlier <:+ steps ∧
      check.request.instruction = Inclusion.initBigTxVerify inclusion txId txSize ∧
      ∃ main, check.before.mainState = some main ∧ Included rt main inclusion txId := by
  induction run with
  | start fresh => exact absurd (fresh.txAccount txId) found
  | @step steps before after request output run success ih =>
      have older (present : before.txAccount txId ≠ none) :
          ∃ check earlier inclusion txSize,
            check :: earlier <:+ (⟨before, request, after, output⟩ : RelayStep) :: steps ∧
            check.request.instruction = Inclusion.initBigTxVerify inclusion txId txSize ∧
            ∃ main, check.before.mainState = some main ∧ Included rt main inclusion txId := by
        rcases ih present with ⟨check, earlier, inclusion, txSize, suffix, rest⟩
        exact ⟨check, earlier, inclusion, txSize, suffix.trans (List.suffix_cons _ _), rest⟩
      cases txStep_of_process success txId with
      | @create inclusion txSize calls absent included created =>
          exact ⟨_, steps, inclusion, txSize, List.suffix_rfl, calls, included⟩
      | @store bytes account calls held fits stored =>
          apply older
          rw [held]
          simp
      | other uncreated unstored unchanged =>
          rw [unchanged] at found
          exact older found

/-- The block of an inclusion check is one that the run has accepted before. -/
theorem backs_of_included (run : RelayRun rt (check :: earlier) ledger)
    (sound : SoundHashes rt (occurring (check :: earlier))) (mainnet : rt.bitcoinTestnet = false)
    (room : LeavesRoom (check :: earlier))
    (supplied : check.request.instruction.commitedHeader? = some inclusion.commitedHeader)
    (included : ∃ main, check.before.mainState = some main ∧ Included rt main inclusion txId) :
    Backs rt earlier check inclusion txId := by
  rcases run.of_cons with ⟨before, _, _⟩
  rcases included with ⟨main, present, included⟩
  have older := List.suffix_cons check earlier
  have soundBefore := sound.mono (occurring_mono older)
  have invariant := (chainInvariant_of_run before soundBefore).main main present
  have confirmed := (requireConfirmed_eq_ok_iff.mp included.1).1
  have known : { c | c ∈ accepted earlier } ⊆ occurring (check :: earlier) :=
    fun _ accepted => occurring_mono older (Or.inl accepted)
  have block : inclusion.commitedHeader ∈ accepted earlier :=
    (invariant.of_getCommitment sound known (mem_occurring_of_commitedHeader? supplied)
      confirmed.commitment).1
  refine ⟨⟨main, present, included⟩, block, ?_⟩
  rcases descends_initial_of_run before soundBefore block with
    ⟨start, startMem, initial, started, descends⟩
  have fits := room start (List.mem_cons_of_mem _ startMem) initial started
  exact ⟨start, startMem, initial, started, costs_of_reflTransGen descends mainnet fits⟩

/-- A payout checks the inclusion itself, or pays what an account holds. -/
theorem exists_inclusion_of_payout (run : RelayRun rt (step :: steps) ledger)
    (pays : step.request.instruction.receiver? = some receiver) :
    ∃ tx check earlier inclusion, processedTx rt step = some tx ∧
      check :: earlier <:+ step :: steps ∧ Checks step check inclusion (rt.computeTxid tx) ∧
      ∃ main, check.before.mainState = some main ∧
        Included rt main inclusion (rt.computeTxid tx) := by
  rcases run.of_cons with ⟨before, success, _⟩
  cases instruction : step.request.instruction with
  | verifySmallTx txBytes confirmations txIndex reversedMerkleProof commitedHeader mintReceiver =>
      have calls : step.request.instruction = Inclusion.verifySmallTx
          ⟨confirmations, txIndex, reversedMerkleProof, commitedHeader⟩ txBytes mintReceiver :=
        instruction
      rcases (process_verifySmallTx_iff calls).mp success with
        ⟨main, tx, _, present, decoded, included, _⟩
      refine ⟨tx, step, steps, _, ?_, List.suffix_rfl, .small rfl calls, main, present, included⟩
      simp only [processedTx, instruction]
      exact decoded
  | finalizeTxProcessing txId mintReceiver =>
      rcases (process_finalizeTxProcessing_iff instruction).mp success with
        ⟨account, tx, _, found, decoded, rfl, _⟩
      have there : step.before.txAccount (rt.computeTxid tx) ≠ none := by
        rw [found]
        simp
      rcases exists_inclusion_of_txAccount before there with
        ⟨check, earlier, inclusion, txSize, suffix, created, included⟩
      refine ⟨tx, check, earlier, inclusion, ?_, suffix.trans (List.suffix_cons _ _),
        .large instruction created, included⟩
      simp only [processedTx, instruction, found, Option.bind_some]
      exact decoded
  | _ =>
      rw [instruction] at pays
      cases pays

theorem Checks.commitedHeader? {payout : RelayStep} (checks : Checks payout check inclusion txId) :
    check.request.instruction.commitedHeader? = some inclusion.commitedHeader := by
  cases checks with
  | small same calls =>
      rw [same, calls]
      rfl
  | large calls created =>
      rw [created]
      rfl

/-- On the main network every payout rests on a check, its own or an earlier one, that found the
transaction in a confirmed block of the chain, and on the proof of work behind the block. -/
theorem backs_of_run (run : RelayRun rt steps ledger) (sound : SoundHashes rt (occurring steps))
    (mainnet : rt.bitcoinTestnet = false) (room : LeavesRoom steps) :
    ∀ payout ∈ steps, ∀ receiver, payout.request.instruction.receiver? = some receiver →
      ∃ tx before check earlier inclusion, processedTx rt payout = some tx ∧
        takenFromDeposit payout = 10 * depositSum rt receiver tx ∧
        payout :: before <:+ steps ∧ check :: earlier <:+ payout :: before ∧
        Checks payout check inclusion (rt.computeTxid tx) ∧
        Backs rt earlier check inclusion (rt.computeTxid tx) := by
  intro payout member receiver pays
  rcases run.of_mem member with ⟨before, _, success, upTo, suffix⟩
  rcases exists_inclusion_of_payout upTo pays with
    ⟨tx, check, earlier, inclusion, processed, upToCheck, checks, included⟩
  rcases payout_spec success pays with ⟨other, processed', _, taken⟩
  cases processed.symm.trans processed'
  have checked := upToCheck.trans suffix
  have roomHere : LeavesRoom (check :: earlier) := fun step stepMem =>
    room step (checked.subset stepMem)
  exact ⟨tx, before, check, earlier, inclusion, processed, taken, suffix, upToCheck, checks,
    backs_of_included (run.of_suffix checked) (sound.mono (occurring_mono checked)) mainnet roomHere
      checks.commitedHeader? included⟩

end

section

open Sample

theorem holds_paidTwice : Holds depositTxid (replay mainnet paidTwice).1
    ((replay mainnet paidTwice).2.txAccount depositTxid) :=
  holds_of_run (run_replay mainnet paidTwice) depositTxid

theorem hashesChecked_paidTwice :
    hashesChecked mainnet [start, main1] (replay mainnet paidTwice).1 = true := by
  decide +kernel

theorem leavesRoom_paidTwice : LeavesRoom (replay mainnet paidTwice).1 := by
  decide +kernel

theorem backs_paidTwice :
    ((replay mainnet paidTwice).1.filter fun step =>
      step.request.instruction.receiver? = some depositor).length = 2 ∧
    ∀ payout ∈ (replay mainnet paidTwice).1, ∀ receiver,
      payout.request.instruction.receiver? = some receiver →
        ∃ tx before check earlier inclusion, processedTx mainnet payout = some tx ∧
          takenFromDeposit payout = 10 * depositSum mainnet receiver tx ∧
          payout :: before <:+ (replay mainnet paidTwice).1 ∧
          check :: earlier <:+ payout :: before ∧
          Checks payout check inclusion (mainnet.computeTxid tx) ∧
          Backs mainnet earlier check inclusion (mainnet.computeTxid tx) := by
  refine ⟨of_decide_eq_true (by decide +kernel), ?_⟩
  apply backs_of_run (run_replay mainnet paidTwice)
  · exact (soundHashes_of_hashesChecked hashesChecked_paidTwice).mono
      (occurring_subset_of_hashesChecked hashesChecked_paidTwice)
  · rfl
  · exact leavesRoom_paidTwice

end

end BtcRelay
