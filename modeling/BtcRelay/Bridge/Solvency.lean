import BtcRelay.Bridge.DoubleMint

/-!
# The deposit account

Lamports enter the deposit account once, when it is created, and leave it only in payouts.
So its balance is always what it was created with less ten lamports for each satoshi
credited since, whatever the order of the instructions, and the bridge can never pay more
than it was funded with. A receiver who signs nothing gains exactly the payouts to it.
-/

namespace BtcRelay

open Exec History

/-- The amount that a step funds the deposit account with. -/
def funding? (step : RelayStep) : Option UInt64 :=
  match step.request.instruction with
  | .deposit amount => some amount
  | _ => none

def fundings (steps : List RelayStep) : List UInt64 := steps.filterMap funding?

/-- The satoshis that a step credits to a receiver. -/
def creditedBy (rt : Runtime) (step : RelayStep) : ℕ :=
  match step.request.instruction.receiver?, processedTx rt step with
  | some receiver, some tx => depositSum rt receiver tx
  | _, _ => 0

def credited (rt : Runtime) (steps : List RelayStep) : ℕ := (steps.map (creditedBy rt)).sum

/-- The lamports that a key owns before the first of some steps that lead to a ledger. -/
def ownedAtStart (steps : List RelayStep) (ledger : Ledger) (key : Pubkey) : ℕ :=
  (((steps.getLast?.map Step.before).getD ledger).lamports key).toNat

/-- What a successful instruction does to the balances. -/
inductive MovesLamports (rt : Runtime) (step : RelayStep) : Prop
  | funds {amount balance : UInt64} (funding : funding? step = some amount)
      (unpaid : step.request.instruction.receiver? = none)
      (absent : step.before.depositAccount = none)
      (opened : step.after.depositAccount = some balance)
      (total : balance.toNat = (rt.rentExemptMinimum (8 + 1)).toNat + amount.toNat)
      (others : ∀ key, step.request.signer ≠ key →
        step.after.lamports key = step.before.lamports key)
  | pays {receiver : Pubkey} {balance rest : UInt64} {tx : Transaction}
      (unfunded : funding? step = none)
      (pays : step.request.instruction.receiver? = some receiver)
      (processed : processedTx rt step = some tx)
      (present : step.before.depositAccount = some balance)
      (remains : step.after.depositAccount = some rest)
      (taken : rest.toNat + 10 * depositSum rt receiver tx = balance.toNat)
      (gains : (step.after.lamports receiver).toNat =
        (step.before.lamports receiver).toNat + 10 * depositSum rt receiver tx)
      (others : ∀ key, receiver ≠ key → step.after.lamports key = step.before.lamports key)
  | still (unfunded : funding? step = none) (unpaid : step.request.instruction.receiver? = none)
      (deposit : step.after.depositAccount = step.before.depositAccount)
      (lamports : step.after.lamports = step.before.lamports)

/-- The account of the bridge, as the steps of a run leave it. -/
structure Solvent (rt : Runtime) (steps : List RelayStep) (ledger : Ledger) : Prop where
  unfunded : ledger.depositAccount = none →
    fundings steps = [] ∧ ∀ step ∈ steps, step.request.instruction.receiver? = none
  funded : ∀ balance, ledger.depositAccount = some balance →
    ∃ amount, fundings steps = [amount] ∧
      balance.toNat + 10 * credited rt steps =
        (rt.rentExemptMinimum (8 + 1)).toNat + amount.toNat
  receivers : ∀ key, (∀ step ∈ steps, step.request.signer ≠ key) →
    (ledger.lamports key).toNat = ownedAtStart steps ledger key + totalPaid key steps

section

variable {rt : Runtime} {steps : List RelayStep} {step : RelayStep} {ledger : Ledger}
  {receiver : Pubkey}

/-- A payout decodes a transaction, computes its deposits and moves the lamports. -/
theorem exists_transfer_of_payout
    (success : process rt step.before step.request = .ok (step.after, step.output))
    (pays : step.request.instruction.receiver? = some receiver) :
    ∃ tx amount balance balances, processedTx rt step = some tx ∧
      step.before.depositAccount = some balance ∧
      depositAmount rt tx receiver = .ok amount ∧
      transferDeposit amount balance (step.before.lamports receiver) = .ok balances ∧
      step.after = step.before.pay receiver balances := by
  generalize instruction : step.request.instruction = called at pays
  cases called with
  | verifySmallTx txBytes confirmations txIndex proof commitedHeader mintReceiver =>
      cases Option.some.inj pays
      simp only [process, instruction, verifySmallTx, bind_eq_ok_iff, load_eq_ok_iff,
        unwrap_eq_ok_iff, Except.ok.injEq, Prod.mk.injEq] at success
      rcases success with ⟨main, _, balance, present, _, _, balances,
        ⟨_, _, tx, decoded, amount, computed, _, _, moved⟩, after, _⟩
      refine ⟨tx, amount, balance, balances, ?_, present, computed, moved, after.symm⟩
      simp only [processedTx, instruction]
      exact decoded
  | finalizeTxProcessing txId mintReceiver =>
      cases Option.some.inj pays
      simp only [process, instruction, bind_eq_ok_iff, load_eq_ok_iff, Except.ok.injEq,
        Prod.mk.injEq] at success
      rcases success with ⟨account, found, balance, present, _, _, balances, finalized, after, _⟩
      rcases finalizeTxProcessing_spec finalized with ⟨tx, amount, decoded, _, computed, moved⟩
      refine ⟨tx, amount, balance, balances, ?_, present, computed, moved, after.symm⟩
      simp only [processedTx, instruction, found, Option.bind_some]
      exact decoded
  | _ => cases pays

theorem movesLamports_of_payout
    (success : process rt step.before step.request = .ok (step.after, step.output))
    (pays : step.request.instruction.receiver? = some receiver) : MovesLamports rt step := by
  rcases exists_transfer_of_payout success pays with
    ⟨tx, amount, balance, ⟨rest, gained⟩, processed, present, computed, moved, after⟩
  have amountEq := (depositAmount_spec computed).1
  rcases transferDeposit_spec moved with ⟨taken, gains⟩
  have unfunded : funding? step = none := by
    generalize instruction : step.request.instruction = called at pays
    cases called with
    | deposit => cases pays
    | _ => simp only [funding?, instruction]
  have remains : step.after.depositAccount = some rest := by
    rw [after]
    rfl
  refine .pays unfunded pays processed present remains ?_ ?_ ?_
  · omega
  · simp only [after, Ledger.pay, Ledger.setLamports, if_true]
    omega
  · intro key other
    simp only [after, Ledger.pay, Ledger.setLamports, if_neg other.symm]

/-- Every successful instruction funds the deposit account, pays from it or leaves the balances
alone. -/
theorem movesLamports_of_process
    (success : process rt step.before step.request = .ok (step.after, step.output)) :
    MovesLamports rt step := by
  have funded {amount : UInt64} (instruction : step.request.instruction = .deposit amount) :
      MovesLamports rt step := by
    simp only [process, deposit, instruction, bind_eq_ok_iff, requireAbsent_eq_ok_iff,
      add64_eq_ok_iff, Except.ok.injEq, Prod.mk.injEq] at success
    rcases success with ⟨_, ⟨_, absent, balance, total, remaining, _, rfl⟩, after, _⟩
    refine .funds ?_ ?_ absent ?_ total ?_
    · simp only [funding?, instruction]
    · simp only [instruction, Instruction.receiver?]
    · rw [← after]
    · intro key other
      simp only [← after, Ledger.setLamports, if_neg other.symm]
  have still (unfunded : funding? step = none)
      (unpaid : step.request.instruction.receiver? = none) {after : Ledger}
      (afterEq : after = step.after)
      (deposit : after.depositAccount = step.before.depositAccount)
      (lamports : after.lamports = step.before.lamports) : MovesLamports rt step :=
    .still unfunded unpaid (by rw [← afterEq, deposit]) (by rw [← afterEq, lamports])
  cases instruction : step.request.instruction with
  | deposit amount => exact funded instruction
  | verifySmallTx => exact movesLamports_of_payout success (by rw [instruction]; rfl)
  | finalizeTxProcessing => exact movesLamports_of_payout success (by rw [instruction]; rfl)
  | initializeRelay =>
      simp only [process, instruction, bind_eq_ok_iff, Except.ok.injEq, Prod.mk.injEq] at success
      rcases success with ⟨_, _, _, _, after, _⟩
      apply still _ _ after rfl rfl <;> simp [funding?, instruction, Instruction.receiver?]
  | submitBlockHeaders =>
      simp only [process, instruction, bind_eq_ok_iff, Except.ok.injEq, Prod.exists,
        Prod.mk.injEq] at success
      rcases success with ⟨_, _, _, _, _, after, _⟩
      apply still _ _ after rfl rfl <;> simp [funding?, instruction, Instruction.receiver?]
  | submitShortForkHeaders =>
      simp only [process, instruction, bind_eq_ok_iff, Except.ok.injEq, Prod.exists,
        Prod.mk.injEq] at success
      rcases success with ⟨_, _, _, _, _, after, _⟩
      apply still _ _ after rfl rfl <;> simp [funding?, instruction, Instruction.receiver?]
  | submitForkHeaders =>
      simp only [process, instruction, bind_eq_ok_iff, Except.ok.injEq, Prod.exists,
        Prod.mk.injEq] at success
      rcases success with ⟨_, _, _, _, _, _, after, _⟩
      apply still _ _ after rfl rfl <;> simp [funding?, instruction, Instruction.receiver?]
  | closeForkAccount =>
      simp only [process, instruction, bind_eq_ok_iff, Except.ok.injEq, Prod.mk.injEq] at success
      rcases success with ⟨_, _, after, _⟩
      apply still _ _ after rfl rfl <;> simp [funding?, instruction, Instruction.receiver?]
  | blockHeight =>
      simp only [process, instruction, bind_eq_ok_iff, Except.ok.injEq, Prod.mk.injEq] at success
      rcases success with ⟨_, _, _, _, after, _⟩
      apply still _ _ after rfl rfl <;> simp [funding?, instruction, Instruction.receiver?]
  | initBigTxVerify =>
      simp only [process, instruction, bind_eq_ok_iff, Except.ok.injEq, Prod.mk.injEq] at success
      rcases success with ⟨_, _, _, _, _, _, _, _, _, _, _, _, after, _⟩
      apply still _ _ after rfl rfl <;> simp [funding?, instruction, Instruction.receiver?]
  | storeTxBytes =>
      simp only [process, instruction, bind_eq_ok_iff, Except.ok.injEq, Prod.mk.injEq] at success
      rcases success with ⟨_, _, _, _, after, _⟩
      apply still _ _ after rfl rfl <;> simp [funding?, instruction, Instruction.receiver?]

theorem totalPaid_cons (step : RelayStep) (steps : List RelayStep) (receiver : Pubkey) :
    totalPaid receiver (step :: steps) =
      (if step.request.instruction.receiver? = some receiver then takenFromDeposit step else 0) +
        totalPaid receiver steps := by
  simp only [totalPaid, payoutsTo, List.filter_cons]
  split
  · rename_i pays
    rw [if_pos (of_decide_eq_true pays), List.map_cons, List.sum_cons]
  · rename_i other
    rw [if_neg (fun same => other (decide_eq_true same)), Nat.zero_add]

theorem ownedAtStart_cons (step : RelayStep) (steps : List RelayStep) (ledger : Ledger)
    (key : Pubkey) :
    ownedAtStart (step :: steps) ledger key = ownedAtStart steps step.before key := by
  simp only [ownedAtStart, List.getLast?_cons]
  cases steps.getLast? with
  | none => rfl
  | some first => rfl

theorem fundings_cons_of_none (unfunded : funding? step = none) :
    fundings (step :: steps) = fundings steps :=
  List.filterMap_cons_none unfunded

theorem credited_cons (rt : Runtime) (step : RelayStep) (steps : List RelayStep) :
    credited rt (step :: steps) = creditedBy rt step + credited rt steps := by
  rw [credited, List.map_cons, List.sum_cons, credited]

theorem creditedBy_of_unpaid (unpaid : step.request.instruction.receiver? = none) :
    creditedBy rt step = 0 := by
  rw [creditedBy, unpaid]

theorem Solvent.receivers_of_unpaid {key : Pubkey} (solvent : Solvent rt steps step.before)
    (unpaid : step.request.instruction.receiver? = none)
    (same : step.after.lamports key = step.before.lamports key)
    (unsigned : ∀ other ∈ step :: steps, other.request.signer ≠ key) :
    (step.after.lamports key).toNat =
      ownedAtStart (step :: steps) step.after key + totalPaid key (step :: steps) := by
  have earlier := solvent.receivers key fun step member =>
    unsigned step (List.mem_cons_of_mem _ member)
  rw [same, earlier, ownedAtStart_cons, totalPaid_cons, unpaid]
  simp

theorem Solvent.next (solvent : Solvent rt steps step.before)
    (moves : MovesLamports rt step) : Solvent rt (step :: steps) step.after := by
  cases moves with
  | @funds amount balance funding unpaid absent opened total others =>
      rcases solvent.unfunded absent with ⟨none, noPayouts⟩
      have nothing : credited rt steps = 0 := by
        apply List.sum_eq_zero
        intro value member
        rcases List.mem_map.mp member with ⟨earlier, earlierMem, rfl⟩
        exact creditedBy_of_unpaid (noPayouts earlier earlierMem)
      refine ⟨?_, ?_, ?_⟩
      · intro absent'
        rw [opened] at absent'
        cases absent'
      · intro balance' present
        cases opened.symm.trans present
        refine ⟨amount, ?_, ?_⟩
        · rw [fundings, List.filterMap_cons_some funding, ← fundings, none]
        · rw [credited_cons, creditedBy_of_unpaid unpaid, nothing]
          omega
      · intro key unsigned
        have same := others key (unsigned _ List.mem_cons_self)
        exact solvent.receivers_of_unpaid unpaid same unsigned
  | @pays receiver balance rest tx unfunded pays processed present remains taken gains others =>
      rcases solvent.funded balance present with ⟨amount, once, total⟩
      have credit : creditedBy rt step = depositSum rt receiver tx := by
        simp only [creditedBy, pays, processed]
      have payout : takenFromDeposit step = 10 * depositSum rt receiver tx := by
        simp only [takenFromDeposit, present, remains, Option.getD_some]
        omega
      refine ⟨?_, ?_, ?_⟩
      · intro absent
        rw [remains] at absent
        cases absent
      · intro balance' present'
        cases remains.symm.trans present'
        refine ⟨amount, (fundings_cons_of_none unfunded).trans once, ?_⟩
        rw [credited_cons, credit]
        omega
      · intro key unsigned
        have earlier := solvent.receivers key fun step member =>
          unsigned step (List.mem_cons_of_mem _ member)
        rw [ownedAtStart_cons, totalPaid_cons, pays]
        by_cases same : receiver = key
        · subst same
          rw [if_pos rfl, gains, earlier, payout]
          omega
        · rw [if_neg (by simpa using same), others key same, earlier, Nat.zero_add]
  | still unfunded unpaid deposit lamports =>
      refine ⟨?_, ?_, ?_⟩
      · intro absent
        rw [deposit] at absent
        rcases solvent.unfunded absent with ⟨none, noPayouts⟩
        refine ⟨(fundings_cons_of_none unfunded).trans none, ?_⟩
        intro earlier member
        rcases List.mem_cons.mp member with rfl | member
        · exact unpaid
        · exact noPayouts earlier member
      · intro balance present
        rw [deposit] at present
        rcases solvent.funded balance present with ⟨amount, once, total⟩
        refine ⟨amount, (fundings_cons_of_none unfunded).trans once, ?_⟩
        rw [credited_cons, creditedBy_of_unpaid unpaid, Nat.zero_add]
        exact total
      · intro key unsigned
        exact solvent.receivers_of_unpaid unpaid (congrFun lamports key) unsigned

/-- In every run the deposit account holds what it was created with, less ten lamports for each
satoshi credited. -/
theorem solvent_of_run (run : RelayRun rt steps ledger) : Solvent rt steps ledger := by
  apply run.invariant
  · intro ledger fresh
    refine ⟨fun _ => ⟨rfl, ?_⟩, ?_, ?_⟩
    · intro step member
      cases member
    · intro balance present
      rw [fresh.depositAccount] at present
      cases present
    · intro key _
      rfl
  · intro steps before request after output _ solvent success
    exact @Solvent.next rt steps ⟨before, request, after, output⟩ solvent
      (movesLamports_of_process success)

end

section

open Sample

theorem solvent_paidTwice :
    Solvent mainnet (replay mainnet paidTwice).1 (replay mainnet paidTwice).2 :=
  solvent_of_run (run_replay mainnet paidTwice)

end

end BtcRelay
