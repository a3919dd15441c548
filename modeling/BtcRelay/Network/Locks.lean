import BtcRelay.Foundations.Schedules
import BtcRelay.Network.Replay

/-!
# Account locks

The network runs transactions in parallel when the accounts they declare do not overlap, or
overlap only where both read. The declarations in `instructions.rs` are enough for that:
what a transaction does depends on its declared accounts alone, and it changes none but the
mutable ones, so every schedule that keeps conflicting transactions in order has the same
outcome.
-/

namespace BtcRelay

open Exec BigEndian Schedules

/-- The accounts of the ledger. The wallets are those of the signers and of the receivers. -/
inductive AccountKey where
  | mainState
  | forkState (forkId : UInt64) (owner : Pubkey)
  | txAccount (txId : Bytes32)
  | depositAccount
  | wallet (owner : Pubkey)
deriving DecidableEq

namespace AccountKey

/-- What an account holds; for a wallet its lamports and the program that owns it. -/
def Contents : AccountKey → Type
  | mainState => Option MainState
  | forkState _ _ => Option ForkState
  | txAccount _ => Option TxAccount
  | depositAccount => Option UInt64
  | wallet _ => UInt64 × Pubkey

end AccountKey

namespace Ledger

def read (ledger : Ledger) : (key : AccountKey) → key.Contents
  | .mainState => ledger.mainState
  | .forkState forkId owner => ledger.forkState forkId owner
  | .txAccount txId => ledger.txAccount txId
  | .depositAccount => ledger.depositAccount
  | .wallet key => (ledger.lamports key, ledger.owner key)

def write (ledger : Ledger) : (key : AccountKey) → key.Contents → Ledger
  | .mainState, account => { ledger with mainState := account }
  | .forkState forkId owner, account => ledger.setFork forkId owner account
  | .txAccount txId, account =>
      { ledger with txAccount := fun id => if id = txId then account else ledger.txAccount id }
  | .depositAccount, account => { ledger with depositAccount := account }
  | .wallet key, wallet =>
      { ledger.setLamports key wallet.1 with
        owner := fun other => if other = key then wallet.2 else ledger.owner other }

/-- The ledger as a store of its accounts. -/
def store : Store Ledger AccountKey AccountKey.Contents where
  read := read
  write := write
  read_write ledger key value := by
    cases key with
    | mainState => rfl
    | forkState forkId owner => simp [read, write, setFork]
    | txAccount txId => simp [read, write]
    | depositAccount => rfl
    | wallet owner => exact Prod.ext (if_pos rfl) (if_pos rfl)
  read_write_of_ne ledger key other value different := by
    cases key with
    | mainState =>
        cases other with
        | mainState => exact absurd rfl different
        | _ => rfl
    | forkState forkId owner =>
        cases other with
        | forkState forkId' owner' =>
            have apart : ¬(forkId' = forkId ∧ owner' = owner) := by
              rintro ⟨rfl, rfl⟩
              exact different rfl
            exact if_neg apart
        | _ => rfl
    | txAccount txId =>
        cases other with
        | txAccount txId' =>
            have apart : txId' ≠ txId := fun same => different (congrArg _ same)
            exact if_neg apart
        | _ => rfl
    | depositAccount =>
        cases other with
        | depositAccount => exact absurd rfl different
        | _ => rfl
    | wallet owner =>
        cases other with
        | wallet owner' =>
            have apart : owner' ≠ owner := fun same => different (congrArg _ same)
            exact Prod.ext (if_neg apart) (if_neg apart)
        | _ => rfl
  ext {left right} same := by
    have main : left.mainState = right.mainState := same .mainState
    have forks : left.forkState = right.forkState := by
      funext forkId owner
      exact same (.forkState forkId owner)
    have txs : left.txAccount = right.txAccount := by
      funext txId
      exact same (.txAccount txId)
    have deposit : left.depositAccount = right.depositAccount := same .depositAccount
    have wallets : left.lamports = right.lamports := by
      funext key
      exact congrArg Prod.fst (same (.wallet key))
    have owners : left.owner = right.owner := by
      funext key
      exact congrArg Prod.snd (same (.wallet key))
    cases left
    cases right
    simp_all only

/-- Changing the lamports of a wallet leaves the program that owns it. -/
theorem write_wallet (ledger : Ledger) (key : Pubkey) (balance : UInt64) :
    ledger.write (.wallet key) (balance, ledger.owner key) = ledger.setLamports key balance := by
  have kept : (fun other => if other = key then ledger.owner key else ledger.owner other) =
      ledger.owner := by
    funext other
    split
    · rename_i same
      rw [same]
    · rfl
  simp only [write, kept]
  rfl

end Ledger

/-- The accounts that an instruction declares, and those it declares as mutable. -/
def Request.accounts (request : Request) : Footprint AccountKey :=
  let signer := AccountKey.wallet request.signer
  match request.instruction with
  | .initializeRelay .. => ⟨∅, {signer, .mainState}⟩
  | .submitBlockHeaders .. => ⟨∅, {signer, .mainState}⟩
  | .submitShortForkHeaders .. => ⟨∅, {signer, .mainState}⟩
  | .submitForkHeaders _ _ forkId _ => ⟨∅, {signer, .mainState, .forkState forkId request.signer}⟩
  | .closeForkAccount forkId => ⟨∅, {signer, .forkState forkId request.signer}⟩
  | .verifySmallTx _ _ _ _ _ mintReceiver =>
      ⟨{.mainState}, {signer, .depositAccount, .wallet mintReceiver}⟩
  | .blockHeight .. => ⟨{.mainState}, {signer}⟩
  | .deposit _ => ⟨∅, {signer, .depositAccount}⟩
  | .initBigTxVerify txId .. => ⟨{.mainState}, {signer, .txAccount txId}⟩
  | .storeTxBytes txId _ => ⟨∅, {signer, .txAccount txId}⟩
  | .finalizeTxProcessing txId mintReceiver =>
      ⟨∅, {signer, .txAccount txId, .depositAccount, .wallet mintReceiver}⟩

section

variable {footprint : Footprint AccountKey} {ledger other after after' : Ledger}

theorem written_setLamports (written : Written Ledger.store footprint ledger after after')
    {key : Pubkey} (declared : .wallet key ∈ footprint.writable) (balance : UInt64) :
    Written Ledger.store footprint ledger (after.setLamports key balance)
      (after'.setLamports key balance) := by
  have alike := written.agree (.wallet key) (Footprint.mem_keys_of_writable declared)
  have owners : after.owner key = after'.owner key := congrArg Prod.snd alike
  have changed := written.write (.wallet key) declared (balance, after.owner key)
  have first := after.write_wallet key balance
  have second := after'.write_wallet key balance
  rw [← owners] at second
  rw [← first, ← second]
  exact changed

theorem written_pay (written : Written Ledger.store footprint ledger after after')
    {mintReceiver : Pubkey} (credits : .wallet mintReceiver ∈ footprint.writable)
    (debits : .depositAccount ∈ footprint.writable) (balances : UInt64 × UInt64) :
    Written Ledger.store footprint ledger (after.pay mintReceiver balances)
      (after'.pay mintReceiver balances) := by
  have credited := written_setLamports written credits balances.2
  exact credited.write .depositAccount debits (some balances.1)

end

/-- A request has the same result, and makes the same changes, on two ledgers that agree on the
accounts it declares. -/
def Keeps (rt : Runtime) (request : Request) : Prop :=
  ∀ ledger other, AgreeOn Ledger.store request.accounts.keys ledger other →
    Confined Ledger.store request.accounts ledger (process rt ledger request)
      (process rt other request)

section

variable (rt : Runtime) (ctx : Context)

theorem keeps_initializeRelay (data : BlockHeader) (blockHeight : UInt32) (chainWork : Bytes32)
    (lastDiffAdjustment : UInt32) (prevBlockTimestamps : List.Vector UInt32 10) :
    Keeps rt ⟨ctx, .initializeRelay data blockHeight chainWork lastDiffAdjustment
      prevBlockTimestamps⟩ := by
  intro ledger other agree
  have main : ledger.mainState = other.mainState :=
    agree .mainState (by simp [Request.accounts, Footprint.keys])
  simp only [process, ← main]
  apply Confined.bind
  intro _
  apply Confined.bind
  intro _
  exact .ok (agree.written.write .mainState (by simp [Request.accounts]) _)

theorem keeps_submitBlockHeaders (data : List BlockHeader)
    (commitedHeader : CommittedBlockHeader) :
    Keeps rt ⟨ctx, .submitBlockHeaders data commitedHeader⟩ := by
  intro ledger other agree
  have main : ledger.mainState = other.mainState :=
    agree .mainState (by simp [Request.accounts, Footprint.keys])
  simp only [process, ← main]
  apply Confined.bind
  intro mainState
  apply Confined.bind
  rintro ⟨mainState, events⟩
  exact .ok (agree.written.write .mainState (by simp [Request.accounts]) _)

theorem keeps_submitShortForkHeaders (data : List BlockHeader)
    (commitedHeader : CommittedBlockHeader) :
    Keeps rt ⟨ctx, .submitShortForkHeaders data commitedHeader⟩ := by
  intro ledger other agree
  have main : ledger.mainState = other.mainState :=
    agree .mainState (by simp [Request.accounts, Footprint.keys])
  simp only [process, ← main]
  apply Confined.bind
  intro mainState
  apply Confined.bind
  rintro ⟨mainState, events⟩
  exact .ok (agree.written.write .mainState (by simp [Request.accounts]) _)

theorem keeps_submitForkHeaders (data : List BlockHeader) (commitedHeader : CommittedBlockHeader)
    (forkId : UInt64) (init : Bool) :
    Keeps rt ⟨ctx, .submitForkHeaders data commitedHeader forkId init⟩ := by
  intro ledger other agree
  have main : ledger.mainState = other.mainState :=
    agree .mainState (by simp [Request.accounts, Footprint.keys])
  have fork : ledger.forkState forkId ctx.signer = other.forkState forkId ctx.signer :=
    agree (.forkState forkId ctx.signer) (by simp [Request.accounts, Footprint.keys])
  simp only [process, ← main, ← fork]
  apply Confined.bind
  intro mainState
  apply Confined.bind
  rintro ⟨mainState, account, events⟩
  have stored := agree.written.write (.forkState forkId ctx.signer)
    (by simp [Request.accounts]) account
  exact .ok (stored.write .mainState (by simp [Request.accounts]) _)

theorem keeps_closeForkAccount (forkId : UInt64) : Keeps rt ⟨ctx, .closeForkAccount forkId⟩ := by
  intro ledger other agree
  have fork : ledger.forkState forkId ctx.signer = other.forkState forkId ctx.signer :=
    agree (.forkState forkId ctx.signer) (by simp [Request.accounts, Footprint.keys])
  simp only [process, ← fork]
  apply Confined.bind
  intro _
  exact .ok (agree.written.write (.forkState forkId ctx.signer) (by simp [Request.accounts]) none)

theorem keeps_verifySmallTx (txBytes : List UInt8) (confirmations txIndex : UInt32)
    (reversedMerkleProof : List Bytes32) (commitedHeader : CommittedBlockHeader)
    (mintReceiver : Pubkey) :
    Keeps rt ⟨ctx, .verifySmallTx txBytes confirmations txIndex reversedMerkleProof commitedHeader
      mintReceiver⟩ := by
  intro ledger other agree
  have main : ledger.mainState = other.mainState :=
    agree .mainState (by simp [Request.accounts, Footprint.keys])
  have deposit : ledger.depositAccount = other.depositAccount :=
    agree .depositAccount (by simp [Request.accounts, Footprint.keys])
  have wallet := agree (.wallet mintReceiver) (by simp [Request.accounts, Footprint.keys])
  have receiver : ledger.lamports mintReceiver = other.lamports mintReceiver :=
    congrArg Prod.fst wallet
  have owner : ledger.owner mintReceiver = other.owner mintReceiver := congrArg Prod.snd wallet
  simp only [process, requireSystemAccount, ← main, ← deposit, ← receiver, ← owner]
  apply Confined.bind
  intro mainState
  apply Confined.bind
  intro depositAccount
  apply Confined.bind
  intro _
  apply Confined.bind
  intro balances
  exact .ok (written_pay agree.written (by simp [Request.accounts]) (by simp [Request.accounts])
    balances)

theorem keeps_blockHeight (value operation : UInt32) :
    Keeps rt ⟨ctx, .blockHeight value operation⟩ := by
  intro ledger other agree
  have main : ledger.mainState = other.mainState :=
    agree .mainState (by simp [Request.accounts, Footprint.keys])
  simp only [process, ← main]
  apply Confined.bind
  intro mainState
  apply Confined.bind
  intro _
  exact .ok agree.written

theorem keeps_deposit (amount : UInt64) : Keeps rt ⟨ctx, .deposit amount⟩ := by
  intro ledger other agree
  have deposit : ledger.depositAccount = other.depositAccount :=
    agree .depositAccount (by simp [Request.accounts, Footprint.keys])
  have wallet := agree (.wallet ctx.signer) (by simp [Request.accounts, Footprint.keys])
  have lamports : ledger.lamports ctx.signer = other.lamports ctx.signer :=
    congrArg Prod.fst wallet
  simp only [process, BtcRelay.deposit, ← deposit, ← lamports, bind_assoc]
  apply Confined.bind
  intro _
  apply Confined.bind
  intro balance
  apply Confined.bind
  intro remaining
  have debited := @written_setLamports _ _ _ _ agree.written ctx.signer
    (by simp [Request.accounts]) remaining
  exact .ok (debited.write .depositAccount (by simp [Request.accounts]) _)

theorem keeps_initBigTxVerify (txId : Bytes32) (txSize : UInt64) (confirmations txIndex : UInt32)
    (reversedMerkleProof : List Bytes32) (commitedHeader : CommittedBlockHeader) :
    Keeps rt ⟨ctx, .initBigTxVerify txId txSize confirmations txIndex reversedMerkleProof
      commitedHeader⟩ := by
  intro ledger other agree
  have main : ledger.mainState = other.mainState :=
    agree .mainState (by simp [Request.accounts, Footprint.keys])
  have account : ledger.txAccount txId = other.txAccount txId :=
    agree (.txAccount txId) (by simp [Request.accounts, Footprint.keys])
  simp only [process, ← main, ← account]
  apply Confined.bind
  intro _
  apply Confined.bind
  intro space
  apply Confined.bind
  intro _
  apply Confined.bind
  intro mainState
  apply Confined.bind
  intro _
  apply Confined.bind
  intro created
  exact .ok (agree.written.write (.txAccount txId) (by simp [Request.accounts]) (some created))

theorem keeps_storeTxBytes (txId : Bytes32) (bytes : List UInt8) :
    Keeps rt ⟨ctx, .storeTxBytes txId bytes⟩ := by
  intro ledger other agree
  have account : ledger.txAccount txId = other.txAccount txId :=
    agree (.txAccount txId) (by simp [Request.accounts, Footprint.keys])
  simp only [process, ← account]
  apply Confined.bind
  intro stored
  apply Confined.bind
  intro appended
  exact .ok (agree.written.write (.txAccount txId) (by simp [Request.accounts]) (some appended))

theorem keeps_finalizeTxProcessing (txId : Bytes32) (mintReceiver : Pubkey) :
    Keeps rt ⟨ctx, .finalizeTxProcessing txId mintReceiver⟩ := by
  intro ledger other agree
  have account : ledger.txAccount txId = other.txAccount txId :=
    agree (.txAccount txId) (by simp [Request.accounts, Footprint.keys])
  have deposit : ledger.depositAccount = other.depositAccount :=
    agree .depositAccount (by simp [Request.accounts, Footprint.keys])
  have wallet := agree (.wallet mintReceiver) (by simp [Request.accounts, Footprint.keys])
  have receiver : ledger.lamports mintReceiver = other.lamports mintReceiver :=
    congrArg Prod.fst wallet
  have owner : ledger.owner mintReceiver = other.owner mintReceiver := congrArg Prod.snd wallet
  simp only [process, requireSystemAccount, ← account, ← deposit, ← receiver, ← owner]
  apply Confined.bind
  intro stored
  apply Confined.bind
  intro depositAccount
  apply Confined.bind
  intro _
  apply Confined.bind
  intro balances
  exact .ok (written_pay agree.written (by simp [Request.accounts]) (by simp [Request.accounts])
    balances)

end

section

variable {rt : Runtime} {ledger : Ledger} {request : Request}

/-- The instructions keep to the accounts they declare. -/
theorem respects_process (rt : Runtime) : Respects Ledger.store (process rt) Request.accounts := by
  rintro ledger other ⟨ctx, instruction⟩
  revert ledger other
  cases instruction with
  | initializeRelay data blockHeight chainWork lastDiffAdjustment prevBlockTimestamps =>
      exact keeps_initializeRelay rt ctx data blockHeight chainWork lastDiffAdjustment
        prevBlockTimestamps
  | submitBlockHeaders data commitedHeader =>
      exact keeps_submitBlockHeaders rt ctx data commitedHeader
  | submitShortForkHeaders data commitedHeader =>
      exact keeps_submitShortForkHeaders rt ctx data commitedHeader
  | submitForkHeaders data commitedHeader forkId init =>
      exact keeps_submitForkHeaders rt ctx data commitedHeader forkId init
  | closeForkAccount forkId => exact keeps_closeForkAccount rt ctx forkId
  | verifySmallTx txBytes confirmations txIndex reversedMerkleProof commitedHeader mintReceiver =>
      exact keeps_verifySmallTx rt ctx txBytes confirmations txIndex reversedMerkleProof
        commitedHeader mintReceiver
  | blockHeight value operation => exact keeps_blockHeight rt ctx value operation
  | deposit amount => exact keeps_deposit rt ctx amount
  | initBigTxVerify txId txSize confirmations txIndex reversedMerkleProof commitedHeader =>
      exact keeps_initBigTxVerify rt ctx txId txSize confirmations txIndex reversedMerkleProof
        commitedHeader
  | storeTxBytes txId bytes => exact keeps_storeTxBytes rt ctx txId bytes
  | finalizeTxProcessing txId mintReceiver =>
      exact keeps_finalizeTxProcessing rt ctx txId mintReceiver

/-- An instruction leaves the accounts as they are that it does not declare as mutable. -/
theorem read_of_process {after : Ledger} {events : List Event}
    (success : process rt ledger request = .ok (after, events)) {key : AccountKey}
    (readonly : key ∉ request.accounts.writable) : after.read key = ledger.read key := by
  have same : AgreeOn Ledger.store request.accounts.keys ledger ledger := fun _ _ => rfl
  have confined := respects_process rt ledger ledger request same
  rw [success] at confined
  cases confined with
  | ok written => exact written.frame key readonly

/-- Transactions give the same ledger, and each the same outcome and events, in every order that
keeps those apart which declare a common account that one of them may change. -/
theorem sameResult_of_accounts (rt : Runtime) (ledger : Ledger) {Label : Type}
    {request : Label → Request} {first second : List Label}
    (equivalent : ConflictEquivalent (fun label => (request label).accounts) first second) :
    SameResult (performAll (process rt) request ledger first)
      (performAll (process rt) request ledger second) :=
  sameResult_of_conflictEquivalent (respects_process rt) equivalent

end

namespace Sample

/-- The requests of a deposit that is paid once, each by a signer of its own. -/
def signedApart (label : Fin 6) : Request :=
  { paidOnce.getD label (begin mainnet) with signer := ofNat 32 label }

theorem sameResult_signedApart :
    SameResult (performAll (process mainnet) signedApart fundedLedger [0, 1, 2, 3, 4, 5])
      (performAll (process mainnet) signedApart fundedLedger [2, 0, 1, 3, 4, 5]) :=
  sameResult_of_accounts mainnet fundedLedger
    { nodup := by decide
      perm := by decide
      ordered := by
        intro earlier later
        revert earlier later
        decide +kernel }

end Sample

end BtcRelay
