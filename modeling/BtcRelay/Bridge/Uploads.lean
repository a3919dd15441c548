import BtcRelay.Bridge.Confirmations

/-!
# Small and large transactions

A transaction that fits in one instruction is proved and paid by `verify_small_tx`. A larger
one is proved first, then uploaded in parts and paid at the end. Undisturbed, the second way
pays exactly when the first does, and the same.
-/

namespace BtcRelay

open Exec History

/-- What a caller gives to prove that a transaction is in a block. -/
structure Inclusion where
  confirmations : UInt32
  txIndex : UInt32
  reversedMerkleProof : List Bytes32
  commitedHeader : CommittedBlockHeader

namespace Inclusion

def verifySmallTx (inclusion : Inclusion) (txBytes : List UInt8) (mintReceiver : Pubkey) :
    Instruction :=
  .verifySmallTx txBytes inclusion.confirmations inclusion.txIndex inclusion.reversedMerkleProof
    inclusion.commitedHeader mintReceiver

def initBigTxVerify (inclusion : Inclusion) (txId : Bytes32) (txSize : UInt64) : Instruction :=
  .initBigTxVerify txId txSize inclusion.confirmations inclusion.txIndex
    inclusion.reversedMerkleProof inclusion.commitedHeader

/-- The instructions that upload a transaction in parts. -/
def upload (inclusion : Inclusion) (txId : Bytes32) (txSize : UInt64)
    (chunks : List (List UInt8)) : List Instruction :=
  inclusion.initBigTxVerify txId txSize :: chunks.map (.storeTxBytes txId)

end Inclusion

/-- Executes requests one after the other, all of which must succeed. -/
def processAll (rt : Runtime) (ledger : Ledger) (requests : List Request) : Exec Ledger :=
  requests.foldlM (fun ledger request => do
    let (ledger, _) ← process rt ledger request
    .ok ledger) ledger

def spaceFor (txSize : UInt64) : ℕ := 8 + 4 + txSize.toNat

def CanCreate (rt : Runtime) (txSize : UInt64) : Prop :=
  spaceFor txSize < 2 ^ 64 ∧ spaceFor txSize ≤ rt.maxAccountSpace

/-- A transaction id is proved to be in a confirmed block. -/
def Included (rt : Runtime) (main : MainState) (inclusion : Inclusion) (txId : Bytes32) : Prop :=
  requireConfirmed rt main inclusion.confirmations inclusion.commitedHeader = .ok () ∧
    computeMerkle rt txId inclusion.txIndex inclusion.reversedMerkleProof =
      inclusion.commitedHeader.header.merkleRoot

def Payable (rt : Runtime) (ledger : Ledger) (mintReceiver : Pubkey) (tx : Transaction)
    (balances : UInt64 × UInt64) : Prop :=
  ∃ deposit amount, ledger.depositAccount = some deposit ∧
    ledger.owner mintReceiver = systemProgram ∧
    depositAmount rt tx mintReceiver = .ok amount ∧
    transferDeposit amount deposit (ledger.lamports mintReceiver) = .ok balances

/-- A receiver is paid for the deposits of a transaction, and the main state is left alone. -/
structure PaysFor (rt : Runtime) (mintReceiver : Pubkey) (tx : Transaction)
    (before after : Ledger) : Prop where
  taken : ∃ deposit remaining, before.depositAccount = some deposit ∧
    after.depositAccount = some remaining ∧
    remaining.toNat + 10 * depositSum rt mintReceiver tx = deposit.toNat
  given : (after.lamports mintReceiver).toNat =
    (before.lamports mintReceiver).toNat + 10 * depositSum rt mintReceiver tx
  others : ∀ owner, owner ≠ mintReceiver → after.lamports owner = before.lamports owner
  mainState : after.mainState = before.mainState

section

variable {rt : Runtime} {request : Request} {ledger after : Ledger} {events : List Event}
  {inclusion : Inclusion} {txId : Bytes32} {txSize : UInt64} {bytes txBytes : List UInt8}
  {mintReceiver : Pubkey} {account : TxAccount}

@[simp]
theorem txAccount_setTx : (ledger.setTx txId account).txAccount txId = some account := by
  simp [Ledger.setTx]

@[simp]
theorem setTx_setTx (other : TxAccount) :
    (ledger.setTx txId account).setTx txId other = ledger.setTx txId other := by
  simp only [Ledger.setTx, Ledger.mk.injEq, true_and, and_true]
  funext id
  split
  · rfl
  · rfl

theorem serializeTx_eq_ok_iff {space : ℕ} {state : BigTxState} :
    serializeTx space state = .ok account ↔
      8 + 4 + state.txBytes.length ≤ space ∧ account = ⟨space, state⟩ := by
  simp only [serializeTx]
  split
  · rename_i fits
    simp only [Except.ok.injEq, fits, true_and, eq_comm]
  · rename_i full
    simp only [reduceCtorEq, full, false_and]

theorem process_initBigTxVerify_iff
    (calls : request.instruction = inclusion.initBigTxVerify txId txSize) :
    process rt ledger request = .ok (after, events) ↔
      ledger.txAccount txId = none ∧ CanCreate rt txSize ∧
        (∃ main, ledger.mainState = some main ∧ Included rt main inclusion txId) ∧
        after = ledger.setTx txId ⟨spaceFor txSize, ⟨[]⟩⟩ ∧ events = [] := by
  have header : UInt64.toNat (8 + 4) = 8 + 4 := rfl
  simp only [process, calls, Inclusion.initBigTxVerify, initBigTxVerify, bind_eq_ok_iff,
    requireAbsent_eq_ok_iff,
    load_eq_ok_iff, add64_eq_ok_iff, serializeTx_eq_ok_iff, require_eq_ok_iff, Except.ok.injEq,
    Prod.mk.injEq, header, createAccount, Included, CanCreate, spaceFor]
  constructor
  · rintro ⟨_, absent, space, spaceEq, _, creates, main, present, _, ⟨_, confirmed, merkle⟩, _,
      ⟨_, rfl⟩, rfl, rfl⟩
    split at creates
    · rename_i fits
      have bound := space.toNat_lt
      rw [spaceEq] at fits bound ⊢
      exact ⟨absent, ⟨bound, fits⟩, ⟨main, present, confirmed, merkle⟩, rfl, rfl⟩
    · cases creates
  · rintro ⟨absent, ⟨bound, fits⟩, ⟨main, present, confirmed, merkle⟩, rfl, rfl⟩
    have spaceEq : (UInt64.ofNat (8 + 4 + txSize.toNat)).toNat = 8 + 4 + txSize.toNat :=
      UInt64.toNat_ofNat_of_lt' bound
    refine ⟨(), absent, UInt64.ofNat (8 + 4 + txSize.toNat), spaceEq, (), ?_, main, present, (),
      ⟨(), confirmed, merkle⟩, _, ⟨?_, rfl⟩, ?_, rfl⟩
    · rw [spaceEq]
      exact if_pos fits
    · rw [spaceEq]
      exact Nat.le_add_right _ _
    · rw [spaceEq]

theorem process_storeTxBytes_iff (calls : request.instruction = .storeTxBytes txId bytes) :
    process rt ledger request = .ok (after, events) ↔
      ∃ account, ledger.txAccount txId = some account ∧
        8 + 4 + (account.state.txBytes ++ bytes).length ≤ account.space ∧
        after = ledger.setTx txId ⟨account.space, ⟨account.state.txBytes ++ bytes⟩⟩ ∧
        events = [] := by
  simp only [process, calls, storeTxBytes, bind_eq_ok_iff, load_eq_ok_iff,
    serializeTx_eq_ok_iff, Except.ok.injEq, Prod.mk.injEq]
  constructor
  · rintro ⟨account, found, _, ⟨fits, rfl⟩, rfl, rfl⟩
    exact ⟨account, found, fits, rfl, rfl⟩
  · rintro ⟨account, found, fits, rfl, rfl⟩
    exact ⟨account, found, _, ⟨fits, rfl⟩, rfl, rfl⟩

theorem process_finalizeTxProcessing_iff
    (calls : request.instruction = .finalizeTxProcessing txId mintReceiver) :
    process rt ledger request = .ok (after, events) ↔
      ∃ account tx balances, ledger.txAccount txId = some account ∧
        rt.consensusDecode account.state.txBytes = some tx ∧ txId = rt.computeTxid tx ∧
        Payable rt ledger mintReceiver tx balances ∧
        after = ledger.pay mintReceiver balances ∧ events = [] := by
  simp only [process, calls, bind_eq_ok_iff, load_eq_ok_iff, requireSystemAccount_eq_ok_iff,
    Except.ok.injEq, Prod.mk.injEq]
  constructor
  · rintro ⟨account, found, deposit, present, _, wallet, balances, finalized, rfl, rfl⟩
    rcases finalizeTxProcessing_spec finalized with ⟨tx, amount, decoded, same, computed, moved⟩
    exact ⟨account, tx, balances, found, decoded, same,
      ⟨deposit, amount, present, wallet, computed, moved⟩, rfl, rfl⟩
  · rintro ⟨account, tx, balances, found, decoded, same, ⟨deposit, amount, present, wallet,
      computed, moved⟩, rfl, rfl⟩
    refine ⟨account, found, deposit, present, (), wallet, balances, ?_, rfl, rfl⟩
    simp only [finalizeTxProcessing, bind_eq_ok_iff, unwrap_eq_ok_iff]
    refine ⟨tx, decoded, ?_⟩
    rw [if_neg (not_not.mpr same)]
    exact bind_eq_ok_iff.mpr ⟨amount, computed, moved⟩

theorem process_verifySmallTx_iff
    (calls : request.instruction = inclusion.verifySmallTx txBytes mintReceiver) :
    process rt ledger request = .ok (after, events) ↔
      ∃ main tx balances, ledger.mainState = some main ∧
        rt.consensusDecode txBytes = some tx ∧
        Included rt main inclusion (rt.computeTxid tx) ∧
        Payable rt ledger mintReceiver tx balances ∧
        after = ledger.pay mintReceiver balances ∧ events = [] := by
  simp only [process, calls, Inclusion.verifySmallTx, verifySmallTx, bind_eq_ok_iff, load_eq_ok_iff,
    requireSystemAccount_eq_ok_iff, unwrap_eq_ok_iff, require_eq_ok_iff, Except.ok.injEq,
    Prod.mk.injEq, Included, Payable]
  constructor
  · rintro ⟨main, present, deposit, funded, _, wallet, balances, ⟨_, confirmed, tx, decoded, amount,
      computed, _, merkle, moved⟩, rfl, rfl⟩
    exact ⟨main, tx, balances, present, decoded, ⟨confirmed, merkle⟩,
      ⟨deposit, amount, funded, wallet, computed, moved⟩, rfl, rfl⟩
  · rintro ⟨main, tx, balances, present, decoded, ⟨confirmed, merkle⟩,
      ⟨deposit, amount, funded, wallet, computed, moved⟩, rfl, rfl⟩
    exact ⟨main, present, deposit, funded, (), wallet, balances, ⟨(), confirmed, tx, decoded, amount,
      computed, (), merkle, moved⟩, rfl, rfl⟩

theorem processAll_cons_iff {requests : List Request} :
    processAll rt ledger (request :: requests) = .ok after ↔
      ∃ next events, process rt ledger request = .ok (next, events) ∧
        processAll rt next requests = .ok after := by
  simp only [processAll, List.foldlM_cons, bind_eq_ok_iff, Prod.exists, Except.ok.injEq]
  constructor
  · rintro ⟨_, ⟨next, events, processed, rfl⟩, rest⟩
    exact ⟨next, events, processed, rest⟩
  · rintro ⟨next, events, processed, rest⟩
    exact ⟨next, ⟨next, events, processed, rfl⟩, rest⟩

theorem processAll_storeTxBytes_iff {chunks : List (List UInt8)} {space : ℕ} {stored : List UInt8}
    {stores requests : List Request}
    (calls : stores.map Request.instruction = chunks.map (.storeTxBytes txId))
    (fits : 8 + 4 + (stored ++ chunks.flatten).length ≤ space) :
    processAll rt (ledger.setTx txId ⟨space, ⟨stored⟩⟩) (stores ++ requests) = .ok after ↔
      processAll rt (ledger.setTx txId ⟨space, ⟨stored ++ chunks.flatten⟩⟩) requests =
        .ok after := by
  induction chunks generalizing stored stores with
  | nil =>
      rw [List.map_nil, List.map_eq_nil_iff] at calls
      rw [calls, List.flatten_nil, List.append_nil, List.nil_append]
  | cons chunk rest ih =>
      rcases List.map_eq_cons_iff.mp calls with ⟨store, stores, rfl, call, calls⟩
      rw [List.flatten_cons, ← List.append_assoc] at fits ⊢
      have room : 8 + 4 + (stored ++ chunk).length ≤ space := by
        rw [List.length_append] at fits
        omega
      rw [← ih calls fits, List.cons_append, processAll_cons_iff]
      simp only [process_storeTxBytes_iff call, txAccount_setTx, setTx_setTx, Option.some.injEq]
      constructor
      · rintro ⟨_, _, ⟨_, rfl, _, rfl, _⟩, processed⟩
        exact processed
      · intro processed
        exact ⟨_, _, ⟨_, rfl, room, rfl, rfl⟩, processed⟩

theorem paysFor_pay {tx : Transaction} {balances : UInt64 × UInt64}
    (payable : Payable rt ledger mintReceiver tx balances) :
    PaysFor rt mintReceiver tx ledger (ledger.pay mintReceiver balances) := by
  rcases payable with ⟨deposit, amount, funded, _, computed, moved⟩
  have exact := (depositAmount_spec computed).1
  rcases transferDeposit_spec moved with ⟨taken, given⟩
  refine ⟨⟨deposit, balances.1, funded, rfl, ?_⟩, ?_, ?_, rfl⟩
  · rw [← exact]
    exact taken
  · simp only [Ledger.pay, Ledger.setLamports, if_pos, ← exact]
    exact given
  · intro owner different
    simp only [Ledger.pay, Ledger.setLamports, if_neg different]

/-- Undisturbed, a large transaction is paid exactly when a small one is, and the same. -/
theorem processAll_upload_iff {chunks : List (List UInt8)} {small : Request}
    {large : List Request}
    (smallCall : small.instruction = inclusion.verifySmallTx txBytes mintReceiver)
    (largeCalls : large.map Request.instruction =
      inclusion.upload txId txSize chunks ++ [.finalizeTxProcessing txId mintReceiver])
    (absent : ledger.txAccount txId = none) (canCreate : CanCreate rt txSize)
    (parts : chunks.flatten = txBytes) (size : txBytes.length ≤ txSize.toNat)
    (identified : ∀ tx, rt.consensusDecode txBytes = some tx → rt.computeTxid tx = txId) :
    (∀ final, processAll rt ledger large = .ok final ↔
        ∃ after, (∃ events, process rt ledger small = .ok (after, events)) ∧
          final = after.setTx txId ⟨spaceFor txSize, ⟨txBytes⟩⟩) ∧
      ∀ after events, process rt ledger small = .ok (after, events) →
        ∃ tx, rt.consensusDecode txBytes = some tx ∧ PaysFor rt mintReceiver tx ledger after ∧
          PaysFor rt mintReceiver tx ledger
            (after.setTx txId ⟨spaceFor txSize, ⟨txBytes⟩⟩) := by
  refine ⟨?_, ?_⟩
  · intro final
    rcases List.map_eq_cons_iff.mp largeCalls with ⟨init, _, rfl, initCall, calls⟩
    rcases List.map_eq_append_iff.mp calls with ⟨stores, last, rfl, storeCalls, lastCall⟩
    rcases List.map_eq_singleton_iff.mp lastCall with ⟨finalize, rfl, finalizeCall⟩
    have fits : 8 + 4 + ([] ++ chunks.flatten).length ≤ spaceFor txSize := by
      rw [List.nil_append, parts]
      exact Nat.add_le_add_left size _
    simp only [processAll_cons_iff, process_initBigTxVerify_iff initCall,
      process_verifySmallTx_iff smallCall]
    constructor
    · rintro ⟨_, _, ⟨_, _, ⟨main, present, included⟩, rfl, _⟩, stored⟩
      rw [processAll_storeTxBytes_iff storeCalls fits, List.nil_append, parts,
        processAll_cons_iff] at stored
      rcases stored with ⟨_, _, finalized, last⟩
      cases Except.ok.inj last
      rw [process_finalizeTxProcessing_iff finalizeCall, txAccount_setTx] at finalized
      rcases finalized with ⟨_, tx, balances, found, decoded, same, payable, rfl, _⟩
      cases found
      rw [same] at included
      exact ⟨_, ⟨_, main, tx, balances, present, decoded, included, payable, rfl, rfl⟩, rfl⟩
    · rintro ⟨_, ⟨_, main, tx, balances, present, decoded, included, payable, rfl, rfl⟩, rfl⟩
      rw [identified tx decoded] at included
      refine ⟨_, _, ⟨absent, canCreate, ⟨main, present, included⟩, rfl, rfl⟩, ?_⟩
      rw [processAll_storeTxBytes_iff storeCalls fits, List.nil_append, parts, processAll_cons_iff]
      refine ⟨_, [], ?_, rfl⟩
      rw [process_finalizeTxProcessing_iff finalizeCall, txAccount_setTx]
      exact ⟨_, tx, balances, rfl, decoded, (identified tx decoded).symm, payable, rfl, rfl⟩
  · intro after events processed
    rcases (process_verifySmallTx_iff smallCall).mp processed with
      ⟨_, tx, balances, _, decoded, _, payable, rfl, _⟩
    have pays := paysFor_pay payable
    exact ⟨tx, decoded, pays, pays.taken, pays.given, pays.others, pays.mainState⟩

end

section

open Sample

def funded : List Request :=
  [begin mainnet, extend mainnet [main1Header] start, request mainnet [] (.deposit (2 ^ 40))]

def depositInclusion : Inclusion where
  confirmations := 1
  txIndex := 1
  reversedMerkleProof := [coinbaseTxid]
  commitedHeader := main1

theorem consensusDecode_mainnet {bytes : List UInt8} {tx : Transaction}
    (decoded : mainnet.consensusDecode bytes = some tx) : tx = depositTx := by
  have found : [depositTx].find? (fun tx => tx.serialize.isPrefixOf bytes) = some tx := decoded
  exact List.mem_singleton.mp (List.mem_of_find?_eq_some found)

theorem computeTxid_depositTx : mainnet.computeTxid depositTx = depositTxid :=
  of_decide_eq_true (by decide +kernel)

theorem length_serialize_depositTx : depositTx.serialize.length ≤ 200 :=
  of_decide_eq_true (by decide +kernel)

/-- The deposit, paid at once or after it has been uploaded in two parts. -/
theorem processAll_upload_iff_deposit :
    (∀ final, processAll mainnet (replay mainnet funded).2
          ((depositInclusion.upload depositTxid 200
              [depositTx.serialize.take 64, depositTx.serialize.drop 64] ++
            [Instruction.finalizeTxProcessing depositTxid depositor]).map (request mainnet [])) =
          .ok final ↔
        ∃ after, (∃ events, process mainnet (replay mainnet funded).2 (paySmall mainnet) =
            .ok (after, events)) ∧
          final = after.setTx depositTxid ⟨spaceFor 200, ⟨depositTx.serialize⟩⟩) ∧
      ∀ after events, process mainnet (replay mainnet funded).2 (paySmall mainnet) =
          .ok (after, events) →
        ∃ tx, mainnet.consensusDecode depositTx.serialize = some tx ∧
          PaysFor mainnet depositor tx (replay mainnet funded).2 after ∧
          PaysFor mainnet depositor tx (replay mainnet funded).2
            (after.setTx depositTxid ⟨spaceFor 200, ⟨depositTx.serialize⟩⟩) := by
  apply @processAll_upload_iff mainnet _ depositInclusion depositTxid 200 depositTx.serialize
    depositor [depositTx.serialize.take 64, depositTx.serialize.drop 64]
  · rfl
  · rw [List.map_map]
    exact List.map_id _
  · exact of_decide_eq_true (by decide +kernel)
  · exact ⟨by decide, by decide⟩
  · simp only [List.flatten_cons, List.flatten_nil, List.append_nil, List.take_append_drop]
  · exact length_serialize_depositTx
  · intro tx decoded
    rw [consensusDecode_mainnet decoded]
    exact computeTxid_depositTx

end

end BtcRelay
