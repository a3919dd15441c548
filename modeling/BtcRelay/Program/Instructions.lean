import BtcRelay.Program.Handlers

/-!
# Accounts and instructions

The account constraints of `instructions.rs`. `Ledger` holds the accounts that the
program reads and writes, each at the address its seeds derive: one main state, one
deposit account, a fork account for each fork id and signer, and a transaction account
for each transaction id. `process` loads the accounts of an instruction, runs its
handler and stores the results; a failure leaves the ledger as it was.

The receiver of a payout must be a wallet, that is an account of the system program. Which
program owns an account is part of the ledger, and no instruction changes it for a wallet.
The runtime's own rules on fees and on rent-exempt balances are not modelled: they can
only make an instruction fail.
-/

namespace BtcRelay

open Exec

/-- The account of a transaction that is uploaded in parts, with the space it was created with. -/
structure TxAccount where
  space : ℕ
  state : BigTxState
deriving DecidableEq

structure Ledger where
  mainState : Option MainState
  forkState : UInt64 → Pubkey → Option ForkState
  txAccount : Bytes32 → Option TxAccount
  depositAccount : Option UInt64
  lamports : Pubkey → UInt64
  /-- The program that owns an account. -/
  owner : Pubkey → Pubkey

/-- The program that owns the wallets. -/
def systemProgram : Pubkey := emptyArray

inductive Instruction where
  | initializeRelay (data : BlockHeader) (blockHeight : UInt32) (chainWork : Bytes32)
      (lastDiffAdjustment : UInt32) (prevBlockTimestamps : List.Vector UInt32 10)
  | submitBlockHeaders (data : List BlockHeader) (commitedHeader : CommittedBlockHeader)
  | submitShortForkHeaders (data : List BlockHeader) (commitedHeader : CommittedBlockHeader)
  | submitForkHeaders (data : List BlockHeader) (commitedHeader : CommittedBlockHeader)
      (forkId : UInt64) (init : Bool)
  | closeForkAccount (forkId : UInt64)
  | verifySmallTx (txBytes : List UInt8) (confirmations txIndex : UInt32)
      (reversedMerkleProof : List Bytes32) (commitedHeader : CommittedBlockHeader)
      (mintReceiver : Pubkey)
  | blockHeight (value operation : UInt32)
  | deposit (amount : UInt64)
  | initBigTxVerify (txId : Bytes32) (txSize : UInt64) (confirmations txIndex : UInt32)
      (reversedMerkleProof : List Bytes32) (commitedHeader : CommittedBlockHeader)
  | storeTxBytes (txId : Bytes32) (bytes : List UInt8)
  | finalizeTxProcessing (txId : Bytes32) (mintReceiver : Pubkey)
deriving DecidableEq

/-- A transaction that calls the program: its context and the instruction. -/
structure Request extends Context where
  instruction : Instruction

/-- The address of an account that is only used for indexing a block. -/
def requireHeaderTopic (rt : Runtime) (ctx : Context) (data : BlockHeader) : Exec Unit :=
  if ctx.remainingAccounts = [headerTopic rt (data.getBlockHash rt)] then .ok ()
  else .error (.account .seedsMismatch)

def load {α : Type} : Option α → Exec α
  | some account => .ok account
  | none => .error (.account .notInitialized)

def requireAbsent {α : Type} : Option α → Exec Unit
  | some _ => .error (.account .alreadyInUse)
  | none => .ok ()

def createAccount (rt : Runtime) (space : ℕ) : Exec Unit :=
  if space ≤ rt.maxAccountSpace then .ok () else .error (.account .creationFailed)

/-- The account must be a wallet. -/
def requireSystemAccount (ledger : Ledger) (key : Pubkey) : Exec Unit :=
  if ledger.owner key = systemProgram then .ok () else .error (.account .notSystemOwned)

/-- The contents of a transaction account must fit in the space it was created with. -/
def serializeTx (space : ℕ) (state : BigTxState) : Exec TxAccount :=
  if 8 + 4 + state.txBytes.length ≤ space then .ok { space, state }
  else .error (.account .didNotSerialize)

namespace Ledger

def setFork (ledger : Ledger) (forkId : UInt64) (signer : Pubkey) (account : Option ForkState) :
    Ledger :=
  { ledger with
    forkState := fun id owner =>
      if id = forkId ∧ owner = signer then account else ledger.forkState id owner }

def setTx (ledger : Ledger) (txId : Bytes32) (account : TxAccount) : Ledger :=
  { ledger with
    txAccount := fun id => if id = txId then some account else ledger.txAccount id }

def setLamports (ledger : Ledger) (owner : Pubkey) (balance : UInt64) : Ledger :=
  { ledger with
    lamports := fun key => if key = owner then balance else ledger.lamports key }

def pay (ledger : Ledger) (mintReceiver : Pubkey) (balances : UInt64 × UInt64) : Ledger :=
  { ledger.setLamports mintReceiver balances.2 with depositAccount := some balances.1 }

end Ledger

/-- Creates the deposit account and moves the signer's lamports to it. -/
def deposit (rt : Runtime) (ledger : Ledger) (signer : Pubkey) (amount : UInt64) :
    Exec Ledger := do
  requireAbsent ledger.depositAccount
  let balance ← add64 (rt.rentExemptMinimum (8 + 1)) amount
  let remaining ← sub64 (ledger.lamports signer) balance
  .ok { ledger.setLamports signer remaining with depositAccount := some balance }

def process (rt : Runtime) (ledger : Ledger) (request : Request) :
    Exec (Ledger × List Event) :=
  let ctx := request.toContext
  match request.instruction with
  | .initializeRelay data blockHeight chainWork lastDiffAdjustment prevBlockTimestamps => do
      requireAbsent ledger.mainState
      requireHeaderTopic rt ctx data
      let (mainState, events) :=
        initializeRelay rt data blockHeight chainWork lastDiffAdjustment prevBlockTimestamps
      .ok ({ ledger with mainState := some mainState }, events)
  | .submitBlockHeaders data commitedHeader => do
      let mainState ← load ledger.mainState
      let (mainState, events) ← submitBlockHeaders rt ctx mainState data commitedHeader
      .ok ({ ledger with mainState := some mainState }, events)
  | .submitShortForkHeaders data commitedHeader => do
      let mainState ← load ledger.mainState
      let (mainState, events) ← submitShortForkHeaders rt ctx mainState data commitedHeader
      .ok ({ ledger with mainState := some mainState }, events)
  | .submitForkHeaders data commitedHeader forkId init => do
      let mainState ← load ledger.mainState
      let account := ledger.forkState forkId ctx.signer
      let (mainState, account, events) ←
        submitForkHeaders rt ctx mainState account data commitedHeader forkId init
      .ok ({ ledger.setFork forkId ctx.signer account with mainState := some mainState }, events)
  | .closeForkAccount forkId => do
      let _ ← load (ledger.forkState forkId ctx.signer)
      .ok (ledger.setFork forkId ctx.signer none, [])
  | .verifySmallTx txBytes confirmations txIndex reversedMerkleProof commitedHeader
      mintReceiver => do
      let mainState ← load ledger.mainState
      let depositAccount ← load ledger.depositAccount
      requireSystemAccount ledger mintReceiver
      let balances ← verifySmallTx rt mainState depositAccount (ledger.lamports mintReceiver)
        txBytes confirmations txIndex reversedMerkleProof commitedHeader mintReceiver
      .ok (ledger.pay mintReceiver balances, [])
  | .blockHeight value operation => do
      let mainState ← load ledger.mainState
      blockHeight mainState value operation
      .ok (ledger, [])
  | .deposit amount => do
      let ledger ← deposit rt ledger ctx.signer amount
      .ok (ledger, [])
  | .initBigTxVerify txId txSize confirmations txIndex reversedMerkleProof commitedHeader => do
      requireAbsent (ledger.txAccount txId)
      let space ← add64 (8 + 4) txSize
      createAccount rt space.toNat
      let mainState ← load ledger.mainState
      initBigTxVerify rt mainState txId confirmations txIndex reversedMerkleProof commitedHeader
      let account ← serializeTx space.toNat { txBytes := [] }
      .ok (ledger.setTx txId account, [])
  | .storeTxBytes txId bytes => do
      let account ← load (ledger.txAccount txId)
      let account ← serializeTx account.space (storeTxBytes account.state bytes)
      .ok (ledger.setTx txId account, [])
  | .finalizeTxProcessing txId mintReceiver => do
      let account ← load (ledger.txAccount txId)
      let depositAccount ← load ledger.depositAccount
      requireSystemAccount ledger mintReceiver
      let balances ← finalizeTxProcessing rt account.state depositAccount
        (ledger.lamports mintReceiver) txId mintReceiver
      .ok (ledger.pay mintReceiver balances, [])

end BtcRelay
