import BtcRelay.Bridge.DoubleMint
import BtcRelay.Bridge.Uploads

/-!
# Uploads among other signers

The account of an uploaded transaction belongs to its id, not to a signer: anyone can create
it, with any size, and anyone can append to it. An honest upload is paid exactly when what
has been appended by everyone still decodes to the transaction.
-/

namespace BtcRelay

open Exec

/-- Executes requests one after the other; those that fail change nothing. -/
def attemptAll (rt : Runtime) (ledger : Ledger) (requests : List Request) : Ledger :=
  requests.foldl (fun ledger request =>
    match process rt ledger request with
    | .ok (after, _) => after
    | .error _ => ledger) ledger

/-- The instructions that create the account of a transaction or append to it. -/
inductive UploadsTo (txId : Bytes32) : Instruction → Prop
  | create (inclusion : Inclusion) (txSize : UInt64) :
      UploadsTo txId (inclusion.initBigTxVerify txId txSize)
  | store (bytes : List UInt8) : UploadsTo txId (.storeTxBytes txId bytes)

/-- What is appended to an account of some space: each part in order, if it still fits. -/
def appended (space : ℕ) : List UInt8 → List Instruction → List UInt8
  | bytes, [] => bytes
  | bytes, .storeTxBytes _ more :: rest =>
      if 8 + 4 + (bytes ++ more).length ≤ space then appended space (bytes ++ more) rest
      else appended space bytes rest
  | bytes, _ :: rest => appended space bytes rest

instance (rt : Runtime) (txSize : UInt64) : Decidable (CanCreate rt txSize) :=
  inferInstanceAs (Decidable (_ ∧ _))

instance (rt : Runtime) (main : MainState) (inclusion : Inclusion) (txId : Bytes32) :
    Decidable (Included rt main inclusion txId) :=
  inferInstanceAs (Decidable (_ ∧ _))

/-- The account that instructions leave for a transaction: the first one that proves its inclusion
creates it, and the later ones append to it. -/
def uploaded (rt : Runtime) (main : MainState) (txId : Bytes32) :
    List Instruction → Option TxAccount
  | [] => none
  | .initBigTxVerify _ txSize confirmations txIndex reversedMerkleProof commitedHeader :: rest =>
      if CanCreate rt txSize ∧
          Included rt main ⟨confirmations, txIndex, reversedMerkleProof, commitedHeader⟩ txId then
        some ⟨spaceFor txSize, ⟨appended (spaceFor txSize) [] rest⟩⟩
      else uploaded rt main txId rest
  | _ :: rest => uploaded rt main txId rest

/-- A deposit that an honest relayer can upload and get paid. -/
structure Uploadable (rt : Runtime) (ledger : Ledger) (main : MainState) (inclusion : Inclusion)
    (txId : Bytes32) (txSize : UInt64) (chunks : List (List UInt8)) (mintReceiver : Pubkey)
    (tx : Transaction) : Prop where
  absent : ledger.txAccount txId = none
  present : ledger.mainState = some main
  included : Included rt main inclusion txId
  canCreate : CanCreate rt txSize
  size : chunks.flatten.length ≤ txSize.toNat
  decoded : rt.consensusDecode chunks.flatten = some tx
  txid : rt.computeTxid tx = txId
  payable : ∃ balances, Payable rt ledger mintReceiver tx balances

/-- The requests of a relayer upload a transaction, and other signers' requests, in between, are
about the account of the same transaction. -/
structure Interleaves (relayer : Pubkey) (txId : Bytes32) (upload : List Instruction)
    (requests : List Request) : Prop where
  own : (requests.filter fun request => request.signer = relayer).map Request.instruction = upload
  others : ∀ request ∈ requests, request.signer ≠ relayer → UploadsTo txId request.instruction

/-- Other signers only create the account, and with enough space. -/
def LeavesAlone (relayer : Pubkey) (txId : Bytes32) (size : ℕ) (requests : List Request) : Prop :=
  ∀ request ∈ requests, request.signer ≠ relayer → ∃ inclusion : Inclusion, ∃ txSize,
    request.instruction = inclusion.initBigTxVerify txId txSize ∧ size ≤ txSize.toNat

/-- The payout after an upload is what it is without the requests of other signers. -/
def PaysAsAlone (rt : Runtime) (ledger : Ledger) (relayer : Pubkey) (requests : List Request)
    (finalize : Request) : Prop :=
  ∃ alone after events others,
    process rt (attemptAll rt ledger
      (requests.filter fun request => request.signer = relayer)) finalize = .ok (alone, events) ∧
    process rt (attemptAll rt ledger requests) finalize = .ok (after, others) ∧
    after.depositAccount = alone.depositAccount ∧ after.lamports = alone.lamports

section

variable {rt : Runtime} {ledger : Ledger} {main : MainState} {inclusion : Inclusion}
  {txId : Bytes32} {txSize : UInt64} {chunks : List (List UInt8)} {mintReceiver relayer : Pubkey}
  {tx : Transaction} {requests : List Request} {finalize : Request}

theorem attemptAll_cons (request : Request) :
    attemptAll rt ledger (request :: requests) =
      attemptAll rt (attemptAll rt ledger [request]) requests := rfl

theorem attemptAll_singleton {request : Request} {next : Ledger} {Enabled : Prop}
    [Decidable Enabled]
    (succeeds : ∀ after events, process rt ledger request = .ok (after, events) ↔
      Enabled ∧ after = next ∧ events = []) :
    attemptAll rt ledger [request] = if Enabled then next else ledger := by
  simp only [attemptAll, List.foldl_cons, List.foldl_nil]
  split
  · rename_i after events processed
    rcases (succeeds after events).mp processed with ⟨enabled, rfl, _⟩
    rw [if_pos enabled]
  · rename_i failure processed
    rw [if_neg]
    intro enabled
    have processed' := (succeeds next []).mpr ⟨enabled, rfl, rfl⟩
    cases processed.symm.trans processed'

theorem attemptAll_of_present {space : ℕ} {bytes : List UInt8}
    (uploads : ∀ request ∈ requests, UploadsTo txId request.instruction) :
    attemptAll rt (ledger.setTx txId ⟨space, ⟨bytes⟩⟩) requests =
      ledger.setTx txId ⟨space, ⟨appended space bytes (requests.map Request.instruction)⟩⟩ := by
  induction requests generalizing bytes with
  | nil => rfl
  | cons request rest ih =>
      have later := fun other member => uploads other (List.mem_cons_of_mem request member)
      rw [attemptAll_cons, List.map_cons]
      have call := uploads request List.mem_cons_self
      generalize called : request.instruction = instruction at call
      cases call with
      | create inclusion txSize =>
          have fails : attemptAll rt (ledger.setTx txId ⟨space, ⟨bytes⟩⟩) [request] =
              if False then ledger else ledger.setTx txId ⟨space, ⟨bytes⟩⟩ := by
            apply attemptAll_singleton
            intro after events
            rw [process_initBigTxVerify_iff called, txAccount_setTx]
            simp
          rw [fails, if_neg id, ih later]
          rfl
      | store more =>
          have stores : attemptAll rt (ledger.setTx txId ⟨space, ⟨bytes⟩⟩) [request] =
              if 8 + 4 + (bytes ++ more).length ≤ space then
                ledger.setTx txId ⟨space, ⟨bytes ++ more⟩⟩
              else ledger.setTx txId ⟨space, ⟨bytes⟩⟩ := by
            apply attemptAll_singleton
            intro after events
            rw [process_storeTxBytes_iff called, txAccount_setTx]
            simp
          rw [stores, appended]
          split
          · exact ih later
          · exact ih later

/-- Requests to upload a transaction leave the account that `uploaded` says. -/
theorem attemptAll_of_absent (absent : ledger.txAccount txId = none)
    (present : ledger.mainState = some main)
    (uploads : ∀ request ∈ requests, UploadsTo txId request.instruction) :
    attemptAll rt ledger requests =
      ((uploaded rt main txId (requests.map Request.instruction)).map
        (ledger.setTx txId)).getD ledger := by
  induction requests with
  | nil => rfl
  | cons request rest ih =>
      have later := fun other member => uploads other (List.mem_cons_of_mem request member)
      rw [attemptAll_cons, List.map_cons]
      have call := uploads request List.mem_cons_self
      generalize called : request.instruction = instruction at call
      cases call with
      | create inclusion txSize =>
          have creates : attemptAll rt ledger [request] =
              if CanCreate rt txSize ∧ Included rt main inclusion txId then
                ledger.setTx txId ⟨spaceFor txSize, ⟨[]⟩⟩ else ledger := by
            apply attemptAll_singleton
            intro after events
            rw [process_initBigTxVerify_iff called, absent, present]
            simp [and_assoc]
          rw [creates, Inclusion.initBigTxVerify, uploaded]
          split
          · rw [attemptAll_of_present later]
            rfl
          · exact ih later
      | store more =>
          have fails : attemptAll rt ledger [request] = if False then ledger else ledger := by
            apply attemptAll_singleton
            intro after events
            rw [process_storeTxBytes_iff called, absent]
            simp
          rw [fails, if_neg id]
          exact ih later

theorem appended_storeTxBytes {space : ℕ} {bytes : List UInt8}
    (fits : 8 + 4 + (bytes ++ chunks.flatten).length ≤ space) :
    appended space bytes (chunks.map (.storeTxBytes txId)) = bytes ++ chunks.flatten := by
  induction chunks generalizing bytes with
  | nil => simp [appended]
  | cons chunk rest ih =>
      rw [List.flatten_cons, ← List.append_assoc] at fits ⊢
      have room : 8 + 4 + (bytes ++ chunk).length ≤ space := by
        rw [List.length_append] at fits
        omega
      rw [List.map_cons, appended, if_pos room]
      exact ih fits

theorem appended_of_leavesAlone {space size : ℕ} {bytes : List UInt8}
    (quiet : LeavesAlone relayer txId size requests) :
    appended space bytes (requests.map Request.instruction) =
      appended space bytes ((requests.filter fun request => request.signer = relayer).map
        Request.instruction) := by
  induction requests generalizing bytes with
  | nil => rfl
  | cons request rest ih =>
      have later : LeavesAlone relayer txId size rest :=
        fun other member => quiet other (List.mem_cons_of_mem request member)
      by_cases own : request.signer = relayer
      · rw [List.filter_cons_of_pos (by simpa using own), List.map_cons, List.map_cons]
        generalize request.instruction = instruction
        cases instruction with
        | storeTxBytes id more =>
            simp only [appended]
            split
            · exact ih later
            · exact ih later
        | _ => exact ih later
      · rw [List.filter_cons_of_neg (by simpa using own), List.map_cons]
        rcases quiet request List.mem_cons_self own with ⟨inclusion, txSize, called, _⟩
        rw [called]
        exact ih later

/-- An upload that other signers leave alone is complete. -/
theorem uploaded_of_leavesAlone (included : Included rt main inclusion txId)
    (canCreate : CanCreate rt txSize) (size : chunks.flatten.length ≤ txSize.toNat)
    (own : (requests.filter fun request => request.signer = relayer).map Request.instruction =
      inclusion.upload txId txSize chunks)
    (quiet : LeavesAlone relayer txId chunks.flatten.length requests) :
    ∃ space, uploaded rt main txId (requests.map Request.instruction) =
      some ⟨space, ⟨chunks.flatten⟩⟩ := by
  have fits {txSize : UInt64} (size : chunks.flatten.length ≤ txSize.toNat) :
      8 + 4 + ([] ++ chunks.flatten).length ≤ spaceFor txSize := Nat.add_le_add_left size _
  induction requests with
  | nil => cases own
  | cons request rest ih =>
      have later : LeavesAlone relayer txId chunks.flatten.length rest :=
        fun other member => quiet other (List.mem_cons_of_mem request member)
      rw [List.map_cons]
      by_cases mine : request.signer = relayer
      · rw [List.filter_cons_of_pos (by simpa using mine), List.map_cons, Inclusion.upload,
          List.cons.injEq] at own
        rw [own.1, Inclusion.initBigTxVerify, uploaded, if_pos ⟨canCreate, included⟩,
          appended_of_leavesAlone later, own.2, appended_storeTxBytes (fits size)]
        exact ⟨_, rfl⟩
      · rw [List.filter_cons_of_neg (by simpa using mine)] at own
        rcases quiet request List.mem_cons_self mine with ⟨other, otherSize, called, enough⟩
        rw [called, Inclusion.initBigTxVerify, uploaded]
        split
        · rw [appended_of_leavesAlone later, own]
          exact ⟨_, congrArg (fun bytes => some (TxAccount.mk _ ⟨bytes⟩))
            (appended_storeTxBytes (fits enough))⟩
        · exact ih own later

theorem Interleaves.uploads (interleaves : Interleaves relayer txId
      (inclusion.upload txId txSize chunks) requests) :
    ∀ request ∈ requests, UploadsTo txId request.instruction := by
  intro request member
  by_cases own : request.signer = relayer
  · have called : request.instruction ∈ inclusion.upload txId txSize chunks := by
      rw [← interleaves.own]
      apply List.mem_map_of_mem
      exact List.mem_filter.mpr ⟨member, decide_eq_true own⟩
    rcases List.mem_cons.mp called with create | store
    · rw [create]
      exact .create inclusion txSize
    · rcases List.mem_map.mp store with ⟨bytes, _, same⟩
      rw [← same]
      exact .store bytes
  · exact interleaves.others request member own

theorem Payable.congr {other : Transaction} {balances : UInt64 × UInt64}
    (outputs : other.output = tx.output) (payable : Payable rt ledger mintReceiver tx balances) :
    Payable rt ledger mintReceiver other balances := by
  rcases payable with ⟨deposit, amount, funded, wallet, computed, moved⟩
  refine ⟨deposit, amount, funded, wallet, ?_, moved⟩
  rw [depositAmount, bridgeMintAmount, outputs]
  exact computed

/-- Among requests of other signers, an honest upload is paid as it is without them exactly when
what everyone has appended decodes to a transaction of the same id. -/
theorem paysAsAlone_iff
    (uploadable : Uploadable rt ledger main inclusion txId txSize chunks mintReceiver tx)
    (interleaves : Interleaves relayer txId (inclusion.upload txId txSize chunks) requests)
    (identify : ∀ account other,
      uploaded rt main txId (requests.map Request.instruction) = some account →
      rt.consensusDecode account.state.txBytes = some other → TxidsIdentify rt [tx, other])
    (calls : finalize.instruction = .finalizeTxProcessing txId mintReceiver) :
    PaysAsAlone rt ledger relayer requests finalize ↔
      ∃ account other, uploaded rt main txId (requests.map Request.instruction) = some account ∧
        rt.consensusDecode account.state.txBytes = some other ∧ rt.computeTxid other = txId := by
  rcases uploadable.payable with ⟨balances, payable⟩
  have uploads := interleaves.uploads
  have attempted := @attemptAll_of_absent rt ledger main txId requests uploadable.absent
    uploadable.present uploads
  -- without the other signers, the account holds the transaction
  have alone : ∃ space, attemptAll rt ledger
      (requests.filter fun request => request.signer = relayer) =
        ledger.setTx txId ⟨space, ⟨chunks.flatten⟩⟩ := by
    have ownOnly : LeavesAlone relayer txId chunks.flatten.length
        (requests.filter fun request => request.signer = relayer) := by
      intro request member foreign
      exact absurd (of_decide_eq_true (List.mem_filter.mp member).2) foreign
    rcases uploaded_of_leavesAlone uploadable.included uploadable.canCreate uploadable.size
      (by rw [List.filter_filter]; simpa using interleaves.own) ownOnly with ⟨space, complete⟩
    refine ⟨space, ?_⟩
    rw [attemptAll_of_absent uploadable.absent uploadable.present
      (fun request member => uploads request (List.mem_filter.mp member).1), complete]
    rfl
  rcases alone with ⟨space, alone⟩
  simp only [PaysAsAlone, alone, attempted, process_finalizeTxProcessing_iff calls]
  constructor
  · rintro ⟨_, _, _, _, _, ⟨account, other, _, found, decoded, same, _⟩, _⟩
    cases left : uploaded rt main txId (requests.map Request.instruction) with
    | none =>
        rw [left] at found
        cases uploadable.absent.symm.trans found
    | some account' =>
        rw [left] at found
        cases (@txAccount_setTx ledger txId account').symm.trans found
        exact ⟨_, other, rfl, decoded, same.symm⟩
  · rintro ⟨account, other, left, decoded, same⟩
    have outputs : other.output = tx.output := by
      apply (identify account other left decoded tx _ other _ _).symm
      · simp
      · simp
      · rw [same, uploadable.txid]
    rw [left]
    refine ⟨_, _, [], [],
      ⟨_, tx, balances, txAccount_setTx, uploadable.decoded, uploadable.txid.symm, payable, rfl,
        rfl⟩,
      ⟨_, other, balances, txAccount_setTx, decoded, same.symm, payable.congr outputs, rfl, rfl⟩,
      rfl, rfl⟩

end

section

open Sample

theorem uploadable_deposit : Uploadable mainnet (replay mainnet funded).2
    (mainStateAfter mainnet funded) depositInclusion depositTxid 94 [depositTx.serialize]
    depositor depositTx := by
  have checked : (replay mainnet funded).2.txAccount depositTxid = none ∧
      (replay mainnet funded).2.mainState.isSome = true ∧
      Included mainnet (mainStateAfter mainnet funded) depositInclusion depositTxid ∧
      depositTx.serialize.length ≤ 94 ∧
      mainnet.consensusDecode depositTx.serialize = some depositTx ∧
      (replay mainnet funded).2.depositAccount = some 1099512581296 ∧
      (replay mainnet funded).2.owner depositor = systemProgram ∧
      depositAmount mainnet depositTx depositor = .ok 100000 ∧
      transferDeposit 100000 1099512581296 ((replay mainnet funded).2.lamports depositor) =
        .ok (1099512581296 - 1000000, 4611686018427387904 + 1000000) :=
    of_decide_eq_true (by decide +kernel)
  rcases checked with ⟨absent, started, included, size, decoded, balance, wallet, amount, moved⟩
  refine ⟨absent, mainState_replay started, included, ⟨by decide, by decide⟩, ?_, ?_,
    computeTxid_depositTx, _, _, _, balance, wallet, amount, moved⟩
  · rw [List.flatten_singleton]
    exact size
  · rw [List.flatten_singleton]
    exact decoded

/-- Another signer creates the account first, with more space than needed. -/
def precreated : List Request :=
  [{ request mainnet [] (depositInclusion.initBigTxVerify depositTxid 300) with
      signer := depositor },
    request mainnet [] (depositInclusion.initBigTxVerify depositTxid 94),
    request mainnet [] (.storeTxBytes depositTxid depositTx.serialize)]

/-- Another signer stores bytes of its own before those of the transaction. -/
def corrupted : List Request :=
  [request mainnet [] (depositInclusion.initBigTxVerify depositTxid 94),
    { request mainnet [] (.storeTxBytes depositTxid (List.replicate 13 0xff)) with
      signer := depositor },
    request mainnet [] (.storeTxBytes depositTxid depositTx.serialize)]

theorem interleaves_precreated : Interleaves emptyArray depositTxid
    (depositInclusion.upload depositTxid 94 [depositTx.serialize]) precreated where
  own := rfl
  others := by
    intro request member foreign
    simp only [precreated, List.mem_cons, List.not_mem_nil, or_false] at member
    rcases member with rfl | rfl | rfl
    · exact .create depositInclusion 300
    · exact absurd rfl foreign
    · exact absurd rfl foreign

theorem interleaves_corrupted : Interleaves emptyArray depositTxid
    (depositInclusion.upload depositTxid 94 [depositTx.serialize]) corrupted where
  own := rfl
  others := by
    intro request member foreign
    simp only [corrupted, List.mem_cons, List.not_mem_nil, or_false] at member
    rcases member with rfl | rfl | rfl
    · exact absurd rfl foreign
    · exact .store (List.replicate 13 0xff)
    · exact absurd rfl foreign

theorem paysAsAlone_iff_precreated :
    PaysAsAlone mainnet (replay mainnet funded).2 emptyArray precreated (payUploaded mainnet) ↔
      ∃ account other, uploaded mainnet (mainStateAfter mainnet funded) depositTxid
          (precreated.map Request.instruction) = some account ∧
        mainnet.consensusDecode account.state.txBytes = some other ∧
        mainnet.computeTxid other = depositTxid := by
  apply paysAsAlone_iff uploadable_deposit interleaves_precreated
  · intro account other _ decoded
    rw [consensusDecode_mainnet decoded]
    decide +kernel
  · rfl

/-- Bytes of another signer keep an honest upload from being paid. -/
theorem not_paysAsAlone_corrupted :
    RelayRun mainnet (replay mainnet funded).1 (replay mainnet funded).2 ∧
      Uploadable mainnet (replay mainnet funded).2 (mainStateAfter mainnet funded)
        depositInclusion depositTxid 94 [depositTx.serialize] depositor depositTx ∧
      Interleaves emptyArray depositTxid
        (depositInclusion.upload depositTxid 94 [depositTx.serialize]) corrupted ∧
      ¬PaysAsAlone mainnet (replay mainnet funded).2 emptyArray corrupted
        (payUploaded mainnet) := by
  refine ⟨run_replay mainnet funded, uploadable_deposit, interleaves_corrupted, ?_⟩
  rintro ⟨_, after, _, others, _, paid, _⟩
  have fails : (process mainnet (attemptAll mainnet (replay mainnet funded).2 corrupted)
      (payUploaded mainnet)).isOk = false := by decide +kernel
  rw [paid] at fails
  cases fails

end

end BtcRelay
