import BtcRelay.Program.Utils

/-!
# The instruction handlers

The handlers of `lib.rs`, as computations on the contents of the accounts they are
given. The three submission handlers run the same loop over the submitted headers and
differ in where a verified header's commitment is stored and in the event they emit;
the loop is `submitHeader`, with these two as parameters.
-/

namespace BtcRelay

open Exec

inductive Event where
  | storeHeader (blockHash commitHash : Bytes32) (header : CommittedBlockHeader)
  | storeFork (forkId : UInt64) (blockHash commitHash : Bytes32) (header : CommittedBlockHeader)
  | chainReorg (forkId : UInt64) (startHeight : UInt32) (tipBlockHash tipCommitHash : Bytes32)
deriving DecidableEq

/-- The part of a transaction's context that the submission handlers read. -/
structure Context where
  signer : Pubkey
  remainingAccounts : List Pubkey
  unixTimestamp : ℤ

/-- The local variables of a submission loop, with the account it stores to. -/
structure Progress (σ : Type) where
  lastCommitedHeader : CommittedBlockHeader
  lastBlockHash : Bytes32
  blockHeight : UInt32
  blockCommitHash : Bytes32
  account : σ
  events : List Event

section Submission

variable {σ : Type}

def submitHeader (rt : Runtime) (unixTimestamp : ℤ) (store : σ → UInt32 → Bytes32 → Exec σ)
    (event : Bytes32 → Bytes32 → CommittedBlockHeader → Event) (progress : Progress σ)
    (submitted : BlockHeader × Pubkey) : Exec (Progress σ) := do
  let (header, remainingAccount) := submitted
  require (progress.lastBlockHash = header.reversedPrevBlockhash) .prevBlock
  let blockHeight ← add32 progress.blockHeight 1
  let (lastCommitedHeader, lastBlockHash) ←
    verifyHeader rt header progress.lastCommitedHeader remainingAccount unixTimestamp
  let blockCommitHash := lastCommitedHeader.getCommitHash rt
  let account ← store progress.account blockHeight blockCommitHash
  let events := progress.events ++ [event lastBlockHash blockCommitHash lastCommitedHeader]
  .ok { lastCommitedHeader, lastBlockHash, blockHeight, blockCommitHash, account, events }

def submitHeaders (rt : Runtime) (ctx : Context) (store : σ → UInt32 → Bytes32 → Exec σ)
    (event : Bytes32 → Bytes32 → CommittedBlockHeader → Event) (data : List BlockHeader)
    (commitedHeader : CommittedBlockHeader) (blockHeight : UInt32) (account : σ) :
    Exec (Progress σ) :=
  (data.zip ctx.remainingAccounts).foldlM (submitHeader rt ctx.unixTimestamp store event)
    { lastCommitedHeader := commitedHeader
      lastBlockHash := commitedHeader.header.getBlockHash rt
      blockHeight
      blockCommitHash := emptyArray
      account
      events := [] }

def requireHeaders (ctx : Context) (data : List BlockHeader) : Exec Unit := do
  require (data ≠ []) .noHeaders
  require (data.length = ctx.remainingAccounts.length) .invalidRemainingAccounts

/-- Storing to the ring buffer; the handlers ignore whether the height was in range. -/
def storeMain (mainState : MainState) (blockHeight : UInt32) (blockCommitment : Bytes32) :
    Exec MainState := do
  let (mainState, _) ← mainState.storeBlockCommitment blockHeight blockCommitment
  .ok mainState

/-- The main state after the chain has moved to a new tip. -/
def MainState.updateTip (mainState : MainState) (lastCommitedHeader : CommittedBlockHeader)
    (blockHeight : UInt32) (tipCommitHash tipBlockHash : Bytes32) : MainState :=
  { mainState with
    lastDiffAdjustment := lastCommitedHeader.lastDiffAdjustment
    blockHeight
    chainWork := lastCommitedHeader.chainWork
    tipCommitHash
    tipBlockHash }

end Submission

def initializeRelay (rt : Runtime) (data : BlockHeader) (blockHeight : UInt32) (chainWork : Bytes32)
    (lastDiffAdjustment : UInt32) (prevBlockTimestamps : List.Vector UInt32 10) :
    MainState × List Event :=
  let commitedHeader : CommittedBlockHeader :=
    { chainWork, header := data, lastDiffAdjustment, blockheight := blockHeight,
      prevBlockTimestamps }
  let hashResult := commitedHeader.getCommitHash rt
  let blockHash := data.getBlockHash rt
  ({ startHeight := blockHeight
     lastDiffAdjustment
     blockHeight
     totalBlocks := 1
     forkCounter := 0
     tipCommitHash := hashResult
     tipBlockHash := blockHash
     chainWork
     blockCommitments := MainState.zeroed.blockCommitments.set 0 hashResult },
    [.storeHeader blockHash hashResult commitedHeader])

def submitBlockHeaders (rt : Runtime) (ctx : Context) (mainState : MainState)
    (data : List BlockHeader) (commitedHeader : CommittedBlockHeader) :
    Exec (MainState × List Event) := do
  requireHeaders ctx data
  let mainStateTip ← mainState.getCommitment mainState.blockHeight
  require (commitedHeader.getCommitHash rt = mainStateTip) .prevBlockCommitment
  let last ← submitHeaders rt ctx storeMain .storeHeader data commitedHeader
    mainState.blockHeight mainState
  .ok (last.account.updateTip last.lastCommitedHeader last.blockHeight last.blockCommitHash
    last.lastBlockHash, last.events)

def submitShortForkHeaders (rt : Runtime) (ctx : Context) (mainState : MainState)
    (data : List BlockHeader) (commitedHeader : CommittedBlockHeader) :
    Exec (MainState × List Event) := do
  requireHeaders ctx data
  let commitment ← mainState.getCommitment commitedHeader.blockheight
  require (commitedHeader.getCommitHash rt = commitment) .prevBlockCommitment
  let forkId := mainState.forkCounter
  let last ← submitHeaders rt ctx storeMain (.storeFork forkId) data commitedHeader
    commitedHeader.blockheight mainState
  require (gtArr last.lastCommitedHeader.chainWork mainState.chainWork) .forkTooShort
  let forkCounter ← add64 forkId 1
  .ok ({ last.account.updateTip last.lastCommitedHeader last.blockHeight last.blockCommitHash
    last.lastBlockHash with forkCounter }, last.events)

/-- The copy of a fork's commitments into the ring buffer. -/
def copyCommitments (mainState : MainState) (forkState : ForkState) : Exec MainState :=
  (List.range forkState.length.toNat).foldlM (fun mainState i => do
    let next ← add32 forkState.startHeight 1
    let height ← add32 next (UInt32.ofNat i)
    let commitment ← index forkState.blockCommitments i
    storeMain mainState height commitment) mainState

/-- A fork account as the handler loads it: `loadInit` of an account that is already
initialized and `loadMut` of one that is not yet are rejected by Anchor. -/
def loadFork (account : Option ForkState) (init : Bool) : Exec ForkState :=
  match init, account with
  | true, none => .ok ForkState.zeroed
  | true, some _ => .error (.account .discriminatorAlreadySet)
  | false, none => .error (.account .discriminatorMismatch)
  | false, some forkState => .ok forkState

/-- Opens a fork on a block of the main chain, or continues one from its tip. -/
def openFork (rt : Runtime) (mainState : MainState) (forkState : ForkState)
    (commitedHeader : CommittedBlockHeader) (forkId : UInt64) : Exec (MainState × ForkState) :=
  let commitHash := commitedHeader.getCommitHash rt
  if forkState.initialized = 0 then do
    require (mainState.forkCounter = forkId) .invalidForkId
    let forkCounter ← add64 forkId 1
    let mainState := { mainState with forkCounter }
    let commitment ← mainState.getCommitment commitedHeader.blockheight
    require (commitHash = commitment) .prevBlockCommitment
    .ok (mainState,
      { forkState with initialized := 1, startHeight := commitedHeader.blockheight })
  else do
    require (commitHash = forkState.tipCommitHash) .prevBlockCommitment
    .ok (mainState, forkState)

/-- The fork account after the call is `none` when the fork was adopted and the account closed. -/
def submitForkHeaders (rt : Runtime) (ctx : Context) (mainState : MainState)
    (account : Option ForkState) (data : List BlockHeader)
    (commitedHeader : CommittedBlockHeader) (forkId : UInt64) (init : Bool) :
    Exec (MainState × Option ForkState × List Event) := do
  requireHeaders ctx data
  let forkState ← loadFork account init
  require (init = decide (forkState.initialized = 0)) .errInit
  let (mainState, forkState) ← openFork rt mainState forkState commitedHeader forkId
  let last ← submitHeaders rt ctx (fun forkState _ => forkState.storeBlockCommitment)
    (.storeFork forkId) data commitedHeader commitedHeader.blockheight forkState
  if gtArr last.lastCommitedHeader.chainWork mainState.chainWork then do
    let mainState ← copyCommitments mainState last.account
    let event : Event :=
      .chainReorg forkId last.account.startHeight last.lastBlockHash last.blockCommitHash
    .ok (mainState.updateTip last.lastCommitedHeader last.blockHeight last.blockCommitHash
      last.lastBlockHash, none, last.events ++ [event])
  else
    .ok (mainState, some { last.account with
      tipBlockHash := last.lastBlockHash
      tipCommitHash := last.blockCommitHash }, last.events)

/-- The confirmations of a block and its commitment, required before a transaction in it is
processed. -/
def requireConfirmed (rt : Runtime) (mainState : MainState) (confirmations : UInt32)
    (commitedHeader : CommittedBlockHeader) : Exec Unit := do
  let blockHeight := commitedHeader.blockheight
  let depth ← sub32 mainState.blockHeight blockHeight
  let depth ← add32 depth 1
  require (depth ≥ confirmations) .blockConfirmations
  let commitment ← mainState.getCommitment blockHeight
  require (commitedHeader.getCommitHash rt = commitment) .prevBlockCommitment

/-- The satoshis deposited for a receiver, of which there must be some. -/
def depositAmount (rt : Runtime) (bitcoinTx : Transaction) (mintReceiver : Pubkey) :
    Exec UInt64 := do
  let amountToTransfer ← bridgeMintAmount rt bitcoinTx mintReceiver
  require (amountToTransfer > 0) .noDepositOutputs
  .ok amountToTransfer

/-- Moves lamports from the deposit account to the receiver. -/
def transferDeposit (amountToTransfer deposit receiver : UInt64) : Exec (UInt64 × UInt64) := do
  let solAmount ← mul64 amountToTransfer 10
  let deposit ← sub64 deposit solAmount
  let receiver ← add64 receiver solAmount
  .ok (deposit, receiver)

/-- Returns the new balances of the deposit account and of the receiver. -/
def verifySmallTx (rt : Runtime) (mainState : MainState) (deposit receiver : UInt64)
    (txBytes : List UInt8) (confirmations txIndex : UInt32)
    (reversedMerkleProof : List Bytes32) (commitedHeader : CommittedBlockHeader)
    (mintReceiver : Pubkey) : Exec (UInt64 × UInt64) := do
  requireConfirmed rt mainState confirmations commitedHeader
  let bitcoinTx ← unwrap (rt.consensusDecode txBytes)
  let amountToTransfer ← depositAmount rt bitcoinTx mintReceiver
  let computedMerkle := computeMerkle rt (rt.computeTxid bitcoinTx) txIndex reversedMerkleProof
  require (computedMerkle = commitedHeader.header.merkleRoot) .merkleRoot
  transferDeposit amountToTransfer deposit receiver

def blockHeight (mainState : MainState) (value operation : UInt32) : Exec Unit :=
  let blockHeight := mainState.blockHeight
  let holds : Bool :=
    match operation.toNat with
    | 0 => blockHeight < value
    | 1 => blockHeight ≤ value
    | 2 => blockHeight > value
    | 3 => blockHeight ≥ value
    | 4 => blockHeight = value
    | _ => false
  require holds .invalidBlockheight

def initBigTxVerify (rt : Runtime) (mainState : MainState) (txId : Bytes32)
    (confirmations txIndex : UInt32) (reversedMerkleProof : List Bytes32)
    (commitedHeader : CommittedBlockHeader) : Exec Unit := do
  requireConfirmed rt mainState confirmations commitedHeader
  let computedMerkle := computeMerkle rt txId txIndex reversedMerkleProof
  require (computedMerkle = commitedHeader.header.merkleRoot) .merkleRoot

def storeTxBytes (txAccount : BigTxState) (bytes : List UInt8) : BigTxState :=
  { txAccount with txBytes := txAccount.txBytes ++ bytes }

/-- Returns the new balances of the deposit account and of the receiver. -/
def finalizeTxProcessing (rt : Runtime) (txAccount : BigTxState) (deposit receiver : UInt64)
    (txId : Bytes32) (mintReceiver : Pubkey) : Exec (UInt64 × UInt64) := do
  let bitcoinTx ← unwrap (rt.consensusDecode txAccount.txBytes)
  if txId ≠ rt.computeTxid bitcoinTx then abort
  let amountToTransfer ← depositAmount rt bitcoinTx mintReceiver
  transferDeposit amountToTransfer deposit receiver

end BtcRelay
