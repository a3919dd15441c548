import BtcRelay.Chain.Runs
import Mathlib.Algebra.BigOperators.Group.List.Basic

/-!
# Payouts

The two instructions that move lamports from the deposit account to a receiver, and what
one of them moves: ten lamports for each satoshi in the outputs of a decoded transaction
that pay to the receiver's deposit script.
-/

namespace BtcRelay

open Exec

/-- An output of a Bitcoin transaction: its txid, its index and its value in satoshis. -/
abbrev Deposit := Bytes32 × ℕ × ℕ

/-- The outputs of a transaction that deposit for a receiver. -/
def deposits (rt : Runtime) (receiver : Pubkey) (tx : Transaction) : List Deposit :=
  (tx.output.zipIdx.filter fun out => out.1.scriptPubkey = expectedScriptPubkey rt receiver).map
    fun out => (rt.computeTxid tx, out.2, out.1.value.toNat)

def depositSum (rt : Runtime) (receiver : Pubkey) (tx : Transaction) : ℕ :=
  ((deposits rt receiver tx).map fun deposit => deposit.2.2).sum

theorem foldlM_add64 {outputs : List TxOut} {start total : UInt64}
    (run : outputs.foldlM (fun total out => add64 total out.value) start = .ok total) :
    total.toNat = start.toNat + (outputs.map fun out => out.value.toNat).sum := by
  induction outputs generalizing start with
  | nil =>
      simp only [List.foldlM_nil, pure_eq_ok, Except.ok.injEq] at run
      rw [run]
      rfl
  | cons out rest ih =>
      simp only [List.foldlM_cons, bind_eq_ok_iff, add64_eq_ok_iff] at run
      rcases run with ⟨next, added, run⟩
      rw [ih run, added, List.map_cons, List.sum_cons, Nat.add_assoc]

/-- Adding up values fails only when their sum overflows. -/
theorem exists_foldlM_add64 {outputs : List TxOut} {start : UInt64}
    (fits : start.toNat + (outputs.map fun out => out.value.toNat).sum < 2 ^ 64) :
    ∃ total, outputs.foldlM (fun total out => add64 total out.value) start = .ok total := by
  induction outputs generalizing start with
  | nil => exact ⟨start, rfl⟩
  | cons out rest ih =>
      rw [List.map_cons, List.sum_cons] at fits
      have added : add64 start out.value = .ok (start + out.value) := if_pos (by omega)
      have sum := add64_eq_ok_iff.mp added
      simp only [List.foldlM_cons, added, ok_bind]
      apply ih
      omega

theorem depositSum_eq (rt : Runtime) (receiver : Pubkey) (tx : Transaction) :
    depositSum rt receiver tx = ((tx.output.filter fun out =>
      out.scriptPubkey = expectedScriptPubkey rt receiver).map fun out => out.value.toNat).sum := by
  simp only [depositSum, deposits, List.map_map]
  have values : ∀ (outputs : List TxOut) (start : ℕ),
      ((outputs.zipIdx start).filter fun out =>
        out.1.scriptPubkey = expectedScriptPubkey rt receiver).map
          (fun out => out.1.value.toNat) =
      (outputs.filter fun out => out.scriptPubkey = expectedScriptPubkey rt receiver).map
        (fun out => out.value.toNat) := by
    intro outputs
    induction outputs with
    | nil => intro start; rfl
    | cons out rest ih =>
        intro start
        simp only [List.zipIdx_cons, List.filter_cons]
        split
        · simp only [List.map_cons, ih]
        · exact ih (start + 1)
  exact congrArg List.sum (values tx.output 0)

theorem depositAmount_spec {rt : Runtime} {tx : Transaction} {receiver : Pubkey} {amount : UInt64}
    (computed : depositAmount rt tx receiver = .ok amount) :
    amount.toNat = depositSum rt receiver tx ∧ 0 < depositSum rt receiver tx := by
  simp only [depositAmount, bridgeMintAmount, bind_eq_ok_iff, require_eq_ok_iff,
    Except.ok.injEq] at computed
  rcases computed with ⟨total, summed, _, positive, rfl⟩
  have exact := foldlM_add64 summed
  rw [← depositSum_eq, UInt64.toNat_zero, Nat.zero_add] at exact
  have bound : 0 < total.toNat := UInt64.lt_iff_toNat_lt.mp positive
  exact ⟨exact, by omega⟩

theorem exists_depositAmount_iff {rt : Runtime} {tx : Transaction} {receiver : Pubkey} :
    (∃ amount, depositAmount rt tx receiver = .ok amount) ↔
      0 < depositSum rt receiver tx ∧ depositSum rt receiver tx < 2 ^ 64 := by
  constructor
  · rintro ⟨amount, computed⟩
    rcases depositAmount_spec computed with ⟨exact, positive⟩
    have bound := amount.toNat_lt
    exact ⟨positive, by omega⟩
  · rintro ⟨positive, fits⟩
    rw [depositSum_eq] at positive fits
    rcases exists_foldlM_add64 (by rw [UInt64.toNat_zero, Nat.zero_add]; exact fits) with
      ⟨total, summed⟩
    have exact := foldlM_add64 summed
    have some_deposit : total > 0 := by
      rw [gt_iff_lt, UInt64.lt_iff_toNat_lt, exact, UInt64.toNat_zero, Nat.zero_add]
      exact positive
    simp only [depositAmount, bridgeMintAmount, bind_eq_ok_iff, require_eq_ok_iff,
      Except.ok.injEq]
    exact ⟨total, total, summed, (), some_deposit, rfl⟩

theorem transferDeposit_spec {amount deposit receiver deposit' receiver' : UInt64}
    (moved : transferDeposit amount deposit receiver = .ok (deposit', receiver')) :
    deposit'.toNat + 10 * amount.toNat = deposit.toNat ∧
      receiver'.toNat = receiver.toNat + 10 * amount.toNat := by
  have ten : UInt64.toNat 10 = 10 := rfl
  simp only [transferDeposit, bind_eq_ok_iff, mul64_eq_ok_iff, sub64_eq_ok_iff, add64_eq_ok_iff,
    Except.ok.injEq, Prod.mk.injEq, ten] at moved
  rcases moved with ⟨solAmount, product, _, taken, _, given, rfl, rfl⟩
  omega

theorem finalizeTxProcessing_spec {rt : Runtime} {txAccount : BigTxState}
    {deposit receiver : UInt64} {txId : Bytes32} {mintReceiver : Pubkey}
    {balances : UInt64 × UInt64}
    (finalized : finalizeTxProcessing rt txAccount deposit receiver txId mintReceiver =
      .ok balances) :
    ∃ tx amount, rt.consensusDecode txAccount.txBytes = some tx ∧ txId = rt.computeTxid tx ∧
      depositAmount rt tx mintReceiver = .ok amount ∧
      transferDeposit amount deposit receiver = .ok balances := by
  simp only [finalizeTxProcessing, bind_eq_ok_iff, unwrap_eq_ok_iff] at finalized
  rcases finalized with ⟨tx, decoded, rest⟩
  by_cases same : txId = rt.computeTxid tx
  · simp only [same, ne_eq, not_true, if_false, bind_eq_ok_iff] at rest
    rcases rest with ⟨amount, computed, moved⟩
    exact ⟨tx, amount, decoded, same, computed, moved⟩
  · simp only [same, ne_eq, not_false_eq_true, if_true, abort, error_bind, reduceCtorEq] at rest

def Instruction.receiver? : Instruction → Option Pubkey
  | .verifySmallTx _ _ _ _ _ mintReceiver => some mintReceiver
  | .finalizeTxProcessing _ mintReceiver => some mintReceiver
  | _ => none

def processedTx (rt : Runtime) (step : RelayStep) : Option Transaction :=
  match step.request.instruction with
  | .verifySmallTx txBytes _ _ _ _ _ => rt.consensusDecode txBytes
  | .finalizeTxProcessing txId _ =>
      (step.before.txAccount txId).bind fun account => rt.consensusDecode account.state.txBytes
  | _ => none

/-- The lamports that a step takes from the deposit account. -/
def takenFromDeposit (step : RelayStep) : ℕ :=
  (step.before.depositAccount.getD 0).toNat - (step.after.depositAccount.getD 0).toNat

/-- A payout takes ten lamports for each satoshi deposited for the receiver, and there are some. -/
theorem payout_spec {rt : Runtime} {step : RelayStep} {receiver : Pubkey}
    (success : process rt step.before step.request = .ok (step.after, step.output))
    (pays : step.request.instruction.receiver? = some receiver) :
    ∃ tx, processedTx rt step = some tx ∧ 0 < depositSum rt receiver tx ∧
      takenFromDeposit step = 10 * depositSum rt receiver tx := by
  have taken {deposit deposit' receiver' : UInt64} {amount : UInt64} {tx : Transaction}
      {balance : UInt64}
      (computed : depositAmount rt tx receiver = .ok amount)
      (moved : transferDeposit amount deposit balance = .ok (deposit', receiver')) :
      0 < depositSum rt receiver tx ∧
        deposit.toNat - deposit'.toNat = 10 * depositSum rt receiver tx := by
    rcases depositAmount_spec computed with ⟨amountEq, positive⟩
    have exact := (transferDeposit_spec moved).1
    omega
  generalize instruction : step.request.instruction = called at pays
  cases called with
  | verifySmallTx txBytes confirmations txIndex proof commitedHeader mintReceiver =>
      cases Option.some.inj pays
      simp only [process, instruction, verifySmallTx, bind_eq_ok_iff, load_eq_ok_iff,
        unwrap_eq_ok_iff, Except.ok.injEq, Prod.mk.injEq] at success
      rcases success with ⟨main, _, deposit, present, _, _, ⟨deposit', receiver'⟩,
        ⟨_, _, tx, decoded, amount, computed, _, _, moved⟩, ledger, _⟩
      rcases taken computed moved with ⟨positive, exact⟩
      refine ⟨tx, ?_, positive, ?_⟩
      · simp only [processedTx, instruction]
        exact decoded
      · simp only [takenFromDeposit, ← ledger, Ledger.pay, present, Option.getD_some]
        exact exact
  | finalizeTxProcessing txId mintReceiver =>
      cases Option.some.inj pays
      simp only [process, instruction, bind_eq_ok_iff, load_eq_ok_iff, Except.ok.injEq,
        Prod.mk.injEq] at success
      rcases success with ⟨account, found, deposit, present, _, _, ⟨deposit', receiver'⟩,
        finalized, ledger, _⟩
      rcases finalizeTxProcessing_spec finalized with ⟨tx, amount, decoded, _, computed, moved⟩
      rcases taken computed moved with ⟨positive, exact⟩
      refine ⟨tx, ?_, positive, ?_⟩
      · simp only [processedTx, instruction, found, Option.bind_some]
        exact decoded
      · simp only [takenFromDeposit, ← ledger, Ledger.pay, present, Option.getD_some]
        exact exact
  | _ => cases pays

end BtcRelay
