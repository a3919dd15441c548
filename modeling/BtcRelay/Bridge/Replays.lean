import BtcRelay.Bridge.Interference

/-!
# Replayed payouts

A payout changes nothing that it depends on but the balances. So a deposit can be paid to a
wallet again and again, as a small or as a large transaction and by any signer, and the only
thing that ends it is that the deposit account runs out.
-/

namespace BtcRelay

open Exec

/-- Apart from the balances, a request may pay a receiver for the deposits of a transaction. -/
inductive Entitled (rt : Runtime) (ledger : Ledger) (receiver : Pubkey) (tx : Transaction)
    (request : Request) : Prop
  | small {inclusion : Inclusion} {txBytes : List UInt8} {main : MainState}
      (calls : request.instruction = inclusion.verifySmallTx txBytes receiver)
      (present : ledger.mainState = some main) (decoded : rt.consensusDecode txBytes = some tx)
      (included : Included rt main inclusion (rt.computeTxid tx))
  | large {account : TxAccount}
      (calls : request.instruction = .finalizeTxProcessing (rt.computeTxid tx) receiver)
      (found : ledger.txAccount (rt.computeTxid tx) = some account)
      (decoded : rt.consensusDecode account.state.txBytes = some tx)

/-- A receiver has been paid a number of lamports from the deposit account. -/
structure Paid (receiver : Pubkey) (lamports : ℕ) (before after : Ledger) : Prop where
  taken : ∃ deposit remaining, before.depositAccount = some deposit ∧
    after.depositAccount = some remaining ∧ remaining.toNat + lamports = deposit.toNat
  given : (after.lamports receiver).toNat = (before.lamports receiver).toNat + lamports
  others : ∀ owner, owner ≠ receiver → after.lamports owner = before.lamports owner
  mainState : after.mainState = before.mainState
  txAccount : after.txAccount = before.txAccount

section

variable {rt : Runtime} {ledger after final : Ledger} {receiver : Pubkey} {tx : Transaction}
  {request : Request} {requests : List Request} {events : List Event} {amount balance : UInt64}
  {balances : UInt64 × UInt64}

theorem transferDeposit_isOk_iff {deposit owned : UInt64} :
    (∃ balances, transferDeposit amount deposit owned = .ok balances) ↔
      10 * amount.toNat ≤ deposit.toNat ∧ owned.toNat + 10 * amount.toNat < 2 ^ 64 := by
  have ten : UInt64.toNat 10 = 10 := rfl
  simp only [transferDeposit, bind_eq_ok_iff, mul64_eq_ok_iff, sub64_eq_ok_iff, add64_eq_ok_iff,
    Except.ok.injEq, ten]
  constructor
  · rintro ⟨_, solAmount, product, remaining, taken, gained, given, _⟩
    have bound := gained.toNat_lt
    omega
  · rintro ⟨enough, fits⟩
    have exact (number : ℕ) (small : number < 2 ^ 64) : (UInt64.ofNat number).toNat = number :=
      UInt64.toNat_ofNat_of_lt' small
    have product := exact (amount.toNat * 10) (by omega)
    have remaining := exact (deposit.toNat - 10 * amount.toNat) (by have := deposit.toNat_lt; omega)
    have gained := exact _ fits
    exact ⟨_, UInt64.ofNat (amount.toNat * 10), by omega,
      UInt64.ofNat (deposit.toNat - 10 * amount.toNat), by omega,
      UInt64.ofNat (owned.toNat + 10 * amount.toNat), by omega, rfl⟩

theorem process_iff_of_entitled (entitled : Entitled rt ledger receiver tx request) :
    process rt ledger request = .ok (after, events) ↔
      ∃ balances, Payable rt ledger receiver tx balances ∧
        after = ledger.pay receiver balances ∧ events = [] := by
  cases entitled with
  | @small inclusion txBytes main calls present decoded included =>
      rw [process_verifySmallTx_iff calls]
      constructor
      · rintro ⟨_, other, balances, _, decoded', _, payable, updated, silent⟩
        cases decoded.symm.trans decoded'
        exact ⟨balances, payable, updated, silent⟩
      · rintro ⟨balances, payable, updated, silent⟩
        exact ⟨main, tx, balances, present, decoded, included, payable, updated, silent⟩
  | @large account calls found decoded =>
      rw [process_finalizeTxProcessing_iff calls]
      constructor
      · rintro ⟨_, other, balances, found', decoded', _, payable, updated, silent⟩
        cases found.symm.trans found'
        cases decoded.symm.trans decoded'
        exact ⟨balances, payable, updated, silent⟩
      · rintro ⟨balances, payable, updated, silent⟩
        exact ⟨account, tx, balances, found, decoded, rfl, payable, updated, silent⟩

/-- Whether an entitled request succeeds depends on the owner of the receiver's account and on the
balances alone. -/
theorem process_iff_transferDeposit (entitled : Entitled rt ledger receiver tx request)
    (computed : depositAmount rt tx receiver = .ok amount)
    (funded : ledger.depositAccount = some balance) :
    process rt ledger request = .ok (after, events) ↔
      ledger.owner receiver = systemProgram ∧
        ∃ balances, transferDeposit amount balance (ledger.lamports receiver) = .ok balances ∧
          after = ledger.pay receiver balances ∧ events = [] := by
  rw [process_iff_of_entitled entitled]
  constructor
  · rintro ⟨balances, ⟨_, _, funded', wallet, computed', moved⟩, updated, silent⟩
    cases funded.symm.trans funded'
    cases computed.symm.trans computed'
    exact ⟨wallet, balances, moved, updated, silent⟩
  · rintro ⟨wallet, balances, moved, updated, silent⟩
    exact ⟨balances, ⟨balance, amount, funded, wallet, computed, moved⟩, updated, silent⟩

theorem lamports_pay (ledger : Ledger) (receiver : Pubkey) (balances : UInt64 × UInt64) :
    (ledger.pay receiver balances).lamports receiver = balances.2 := by
  simp only [Ledger.pay, Ledger.setLamports, if_true]

/-- A payout does not use up what entitles to it. -/
theorem Entitled.pay (entitled : Entitled rt ledger receiver tx request) (owner : Pubkey)
    (balances : UInt64 × UInt64) :
    Entitled rt (ledger.pay owner balances) receiver tx request := by
  cases entitled with
  | small calls present decoded included => exact .small calls present decoded included
  | large calls found decoded => exact .large calls found decoded

theorem Paid.refl (funded : ledger.depositAccount = some balance) :
    Paid receiver 0 ledger ledger where
  taken := ⟨balance, balance, funded, funded, Nat.add_zero _⟩
  given := (Nat.add_zero _).symm
  others _ _ := rfl
  mainState := rfl
  txAccount := rfl

theorem Paid.trans {first second : ℕ} (paid : Paid receiver first ledger after)
    (next : Paid receiver second after final) : Paid receiver (first + second) ledger final where
  taken := by
    rcases paid.taken with ⟨deposit, between, funded, left, taken⟩
    rcases next.taken with ⟨between', remaining, left', remains, takenNext⟩
    cases left.symm.trans left'
    exact ⟨deposit, remaining, funded, remains, by omega⟩
  given := by
    rw [next.given, paid.given, Nat.add_assoc]
  others owner different := (next.others owner different).trans (paid.others owner different)
  mainState := next.mainState.trans paid.mainState
  txAccount := next.txAccount.trans paid.txAccount

theorem paid_pay (funded : ledger.depositAccount = some balance)
    (moved : transferDeposit amount balance (ledger.lamports receiver) = .ok balances) :
    Paid receiver (10 * amount.toNat) ledger (ledger.pay receiver balances) := by
  rcases transferDeposit_spec moved with ⟨taken, given⟩
  refine ⟨⟨balance, balances.1, funded, rfl, taken⟩, ?_, ?_, rfl, rfl⟩
  · rw [lamports_pay]
    exact given
  · intro owner different
    simp only [Ledger.pay, Ledger.setLamports, if_neg different]

/-- Requests for one deposit, as many as there may be, all succeed exactly if the receiver is a
wallet and the deposit account can pay for all of them, and each of them is paid in full. -/
theorem processAll_entitled_iff
    (entitled : ∀ request ∈ requests, Entitled rt ledger receiver tx request)
    (computed : depositAmount rt tx receiver = .ok amount)
    (funded : ledger.depositAccount = some balance) :
    ((∃ final, processAll rt ledger requests = .ok final) ↔
      (requests ≠ [] → ledger.owner receiver = systemProgram) ∧
        requests.length * (10 * amount.toNat) ≤ balance.toNat ∧
        (ledger.lamports receiver).toNat + requests.length * (10 * amount.toNat) < 2 ^ 64) ∧
    ∀ final, processAll rt ledger requests = .ok final →
      Paid receiver (requests.length * (10 * amount.toNat)) ledger final := by
  induction requests generalizing ledger balance with
  | nil =>
      have bound := (ledger.lamports receiver).toNat_lt
      refine ⟨?_, ?_⟩
      · rw [List.length_nil, Nat.zero_mul]
        exact iff_of_true ⟨ledger, rfl⟩ ⟨fun some => absurd rfl some, Nat.zero_le _, bound⟩
      · rintro final processed
        cases Except.ok.inj processed
        rw [List.length_nil, Nat.zero_mul]
        exact Paid.refl funded
  | cons request rest ih =>
      have here := entitled request List.mem_cons_self
      rw [List.length_cons, Nat.succ_mul]
      -- what holds of the remaining requests once the first has been paid
      have later {balances : UInt64 × UInt64}
          (moved : transferDeposit amount balance (ledger.lamports receiver) = .ok balances) :=
        ih (fun other member => (entitled other (List.mem_cons_of_mem _ member)).pay receiver balances)
          (rfl : (ledger.pay receiver balances).depositAccount = some balances.1)
      refine ⟨?_, ?_⟩
      · simp only [processAll_cons_iff, process_iff_transferDeposit here computed funded]
        constructor
        · rintro ⟨final, next, events, ⟨wallet, balances, moved, rfl, _⟩, rested⟩
          rcases (later moved).1.mp ⟨final, rested⟩ with ⟨_, enough, fits⟩
          rw [lamports_pay] at fits
          rcases transferDeposit_spec moved with ⟨taken, given⟩
          exact ⟨fun _ => wallet, by omega, by omega⟩
        · rintro ⟨wallet, enough, fits⟩
          have wallet := wallet (List.cons_ne_nil _ _)
          rcases transferDeposit_isOk_iff.mpr (⟨by omega, by omega⟩ :
            10 * amount.toNat ≤ balance.toNat ∧
              (ledger.lamports receiver).toNat + 10 * amount.toNat < 2 ^ 64) with ⟨balances, moved⟩
          rcases transferDeposit_spec moved with ⟨taken, given⟩
          have bounds : rest.length * (10 * amount.toNat) ≤ balances.1.toNat ∧
              ((ledger.pay receiver balances).lamports receiver).toNat +
                rest.length * (10 * amount.toNat) < 2 ^ 64 := by
            rw [lamports_pay]
            omega
          rcases (later moved).1.mpr ⟨fun _ => wallet, bounds⟩ with ⟨final, rested⟩
          exact ⟨final, _, [], ⟨wallet, balances, moved, rfl, rfl⟩, rested⟩
      · intro final processed
        rcases processAll_cons_iff.mp processed with ⟨next, events, processed, rested⟩
        rcases (process_iff_transferDeposit here computed funded).mp processed with
          ⟨_, balances, moved, rfl, _⟩
        rw [Nat.add_comm]
        exact (paid_pay funded moved).trans ((later moved).2 final rested)

end

section

open Sample

theorem entitled_paidOnce : ∀ request ∈ [payUploaded mainnet, paySmall mainnet],
    Entitled mainnet (replay mainnet paidOnce).2 depositor depositTx request := by
  have checked : (replay mainnet paidOnce).2.mainState.isSome = true ∧
      Included mainnet (mainStateAfter mainnet paidOnce) depositInclusion depositTxid ∧
      (replay mainnet paidOnce).2.txAccount depositTxid =
        some ⟨spaceFor 200, ⟨depositTx.serialize⟩⟩ ∧
      mainnet.consensusDecode depositTx.serialize = some depositTx :=
    of_decide_eq_true (by decide +kernel)
  rcases checked with ⟨present, included, found, decoded⟩
  rw [← computeTxid_depositTx] at included found
  intro request member
  simp only [List.mem_cons, List.not_mem_nil, or_false] at member
  rcases member with rfl | rfl
  · apply Entitled.large _ found decoded
    rw [computeTxid_depositTx]
    rfl
  · have calls : (paySmall mainnet).instruction =
        depositInclusion.verifySmallTx depositTx.serialize depositor := rfl
    exact .small calls (mainState_replay present) decoded included

theorem depositAmount_depositTx : depositAmount mainnet depositTx depositor = .ok 100000 :=
  of_decide_eq_true (by decide +kernel)

theorem depositAccount_paidOnce : (replay mainnet paidOnce).2.depositAccount =
    some (2 ^ 40 + 953520 - 1000000) :=
  of_decide_eq_true (by decide +kernel)

/-- The deposit that has been paid once is paid twice more. -/
theorem processAll_entitled_paidOnce :
    ((∃ final, processAll mainnet (replay mainnet paidOnce).2
          [payUploaded mainnet, paySmall mainnet] = .ok final) ↔
        ([payUploaded mainnet, paySmall mainnet] ≠ [] →
            (replay mainnet paidOnce).2.owner depositor = systemProgram) ∧
          [payUploaded mainnet, paySmall mainnet].length * (10 * UInt64.toNat 100000) ≤
            UInt64.toNat (2 ^ 40 + 953520 - 1000000) ∧
          ((replay mainnet paidOnce).2.lamports depositor).toNat +
            [payUploaded mainnet, paySmall mainnet].length * (10 * UInt64.toNat 100000) <
              2 ^ 64) ∧
      ∀ final, processAll mainnet (replay mainnet paidOnce).2
          [payUploaded mainnet, paySmall mainnet] = .ok final →
        Paid depositor
          ([payUploaded mainnet, paySmall mainnet].length * (10 * UInt64.toNat 100000))
          (replay mainnet paidOnce).2 final :=
  processAll_entitled_iff entitled_paidOnce depositAmount_depositTx depositAccount_paidOnce

end

end BtcRelay
