import BtcRelay.Program.Structs

/-!
# Account contents

The accounts of `state.rs`: the main state with its ring buffer of commitments, the
intermediary account of a long fork and the account of a transaction uploaded in
parts.
-/

namespace BtcRelay

open Exec

/-- How many block commitments are kept in the ring buffer. -/
abbrev PRUNING_FACTOR : ℕ := 250

def PRUNING_FACTOR_U32 : UInt32 := 250

/-- The all-zero array, returned for heights without a commitment. -/
def emptyArray : Bytes32 := List.Vector.replicate 32 0

structure BigTxState where
  txBytes : List UInt8
deriving DecidableEq

structure MainState where
  startHeight : UInt32
  lastDiffAdjustment : UInt32
  blockHeight : UInt32
  totalBlocks : UInt32
  forkCounter : UInt64
  tipCommitHash : Bytes32
  tipBlockHash : Bytes32
  chainWork : Bytes32
  blockCommitments : List.Vector Bytes32 PRUNING_FACTOR
deriving DecidableEq

namespace MainState

def zeroed : MainState where
  startHeight := 0
  lastDiffAdjustment := 0
  blockHeight := 0
  totalBlocks := 0
  forkCounter := 0
  tipCommitHash := emptyArray
  tipBlockHash := emptyArray
  chainWork := emptyArray
  blockCommitments := List.Vector.replicate PRUNING_FACTOR emptyArray

/-- The slot of a height, `0` for a height past the buffer and `PRUNING_FACTOR` for one before
it. -/
def getPosition (self : MainState) (blockHeight : UInt32) : Exec ℕ :=
  if self.startHeight ≤ blockHeight then do
    let pos ← sub32 blockHeight self.startHeight
    if pos ≥ PRUNING_FACTOR_U32 then .ok 0 else .ok pos.toNat
  else do
    let pos ← sub32 self.startHeight blockHeight
    if pos ≥ PRUNING_FACTOR_U32 then .ok PRUNING_FACTOR
    else do
      let pos ← sub32 PRUNING_FACTOR_U32 pos
      .ok pos.toNat

def getCommitment (self : MainState) (blockHeight : UInt32) : Exec Bytes32 :=
  if blockHeight > self.blockHeight then .ok emptyArray
  else do
    let oldest ← sub32 self.blockHeight PRUNING_FACTOR_U32
    if blockHeight ≤ oldest then .ok emptyArray
    else do
      let pos ← self.getPosition blockHeight
      if pos = PRUNING_FACTOR then .ok emptyArray
      else index self.blockCommitments pos

/-- Stores a commitment; `false` when its height has fallen out of the buffer. -/
def storeBlockCommitment (self : MainState) (blockHeight : UInt32) (blockCommitment : Bytes32) :
    Exec (MainState × Bool) := do
  let position ← self.getPosition blockHeight
  if position = PRUNING_FACTOR then .ok (self, false)
  else do
    let blockCommitments ← update self.blockCommitments position blockCommitment
    let totalBlocks ← add32 self.totalBlocks 1
    let startHeight := if position = 0 then blockHeight else self.startHeight
    .ok ({ self with blockCommitments, totalBlocks, startHeight }, true)

end MainState

structure ForkState where
  initialized : UInt32
  startHeight : UInt32
  length : UInt32
  tipCommitHash : Bytes32
  tipBlockHash : Bytes32
  blockCommitments : List.Vector Bytes32 PRUNING_FACTOR
deriving DecidableEq

namespace ForkState

def zeroed : ForkState where
  initialized := 0
  startHeight := 0
  length := 0
  tipCommitHash := emptyArray
  tipBlockHash := emptyArray
  blockCommitments := List.Vector.replicate PRUNING_FACTOR emptyArray

/-- Appends a commitment. There is no ring buffer here: a full fork account panics. -/
def storeBlockCommitment (self : ForkState) (blockCommitment : Bytes32) : Exec ForkState := do
  let blockCommitments ← update self.blockCommitments self.length.toNat blockCommitment
  let length ← add32 self.length 1
  .ok { self with blockCommitments, length }

end ForkState

end BtcRelay
