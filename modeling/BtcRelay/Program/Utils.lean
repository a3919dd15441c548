import BtcRelay.Program.ArrayUtils
import BtcRelay.Program.State
import Mathlib.Data.Vector.Snoc

/-!
# Block header verification

The functions of `utils.rs`: the compact encoding of targets, the difficulty of a
target, retargeting, the checks made on a new header, the Merkle verifier and the
amount a transaction deposits for a receiver.
-/

namespace BtcRelay

open Exec

/-- The bridge's public key. -/
def BITCOIN_DEPOSIT_PUBKEY : List UInt8 :=
  [0x02, 0x88, 0xe6, 0x4b, 0x7f, 0xd0, 0xbc, 0xda, 0xf5, 0xc0, 0x08, 0x1d, 0x06, 0x8f, 0x6a, 0x6f,
    0x7b, 0x6e, 0xa0, 0x03, 0x6e, 0xba, 0xbf, 0x3d, 0xaa, 0xbc, 0x74, 0xc2, 0xc7, 0xe1, 0x19,
    0x1e, 0x2d]

/-- The clock as a `u32`; a time outside its range panics. -/
def nowTs (unixTimestamp : ℤ) : Exec UInt32 :=
  if 0 ≤ unixTimestamp ∧ unixTimestamp < 2 ^ 32 then .ok (UInt32.ofNat unixTimestamp.toNat)
  else abort

def MAX_DIFFICULTY : Bytes32 :=
  ⟨[0x00, 0x00, 0x00, 0x00, 0xFF, 0xFF, 0x00, 0x00, 0x00, 0x00, 0x00, 0x00, 0x00, 0x00, 0x00, 0x00,
    0x00, 0x00, 0x00, 0x00, 0x00, 0x00, 0x00, 0x00, 0x00, 0x00, 0x00, 0x00, 0x00, 0x00, 0x00,
    0x00], rfl⟩

def UNROUNDED_MAX_TARGET : Bytes32 :=
  ⟨[0x00, 0x00, 0x00, 0x00, 0xFF, 0xFF, 0xFF, 0xFF, 0xFF, 0xFF, 0xFF, 0xFF, 0xFF, 0xFF, 0xFF, 0xFF,
    0xFF, 0xFF, 0xFF, 0xFF, 0xFF, 0xFF, 0xFF, 0xFF, 0xFF, 0xFF, 0xFF, 0xFF, 0xFF, 0xFF, 0xFF,
    0xFF], rfl⟩

def DIFF_ADJUSTMENT_INTERVAL : UInt32 := 2016

def TARGET_TIMESPAN : UInt32 := 14 * 24 * 60 * 60

def TARGET_TIMESPAN_DIV_4 : UInt32 := TARGET_TIMESPAN / 4

def TARGET_TIMESPAN_MUL_4 : UInt32 := TARGET_TIMESPAN * 4

def MAX_FUTURE_BLOCKTIME : UInt32 := 4 * 60 * 60

def leadingByte (target : Bytes32) : Option ℕ :=
  target.toList.findIdx? (fun byte => 0 < byte)

def targetToNbits (target : Bytes32) : UInt32 :=
  let nSize : UInt32 :=
    match leadingByte target with
    | some i => UInt32.ofNat (32 - i)
    | none => 0
  let nCompact : UInt32 := (List.range 3).foldl (fun nCompact i =>
    let pos := 32 - nSize.toNat + i
    if inRange : pos < 32 then
      nCompact ||| (target.get ⟨pos, inRange⟩).toUInt32 <<< UInt32.ofNat ((2 - i) * 8)
    else nCompact) 0
  -- the top bit of the mantissa is its sign
  let (nCompact, nSize) : UInt32 × UInt32 :=
    if nCompact &&& 0x00800000 > 0 then (nCompact >>> 8, nSize + 1) else (nCompact, nSize)
  (nCompact &&& (0x00FFFFFF : UInt32)) ||| ((nSize <<< 24) &&& (0xFF000000 : UInt32))

def nbitsToTarget (nbits : UInt32) : Exec Bytes32 := do
  let nSize := (nbits >>> 24) &&& 0xFF
  let nWord : List (ℕ × UInt8) :=
    [(0, ((nbits >>> 16) &&& 0x7F).toUInt8), (1, ((nbits >>> 8) &&& 0xFF).toUInt8),
      (2, (nbits &&& 0xFF).toUInt8)]
  let start ← sub32 32 nSize
  .ok (nWord.foldl (fun target (i, byte) =>
    if inRange : start.toNat + i < 32 then target.set ⟨start.toNat + i, inRange⟩ byte
    else target) emptyArray)

/-- The difficulty of a target, `MAX_DIFFICULTY / target`. -/
def getDifficulty (target : Bytes32) : Exec Bytes32 := do
  let start := (leadingByte target).getD 0
  let shift ← subUsize (32 - start) 3
  let num ← (List.range 3).foldlM (fun num i => do
    let byte ← index target (start + i)
    .ok (num ||| byte.toUInt32 <<< UInt32.ofNat ((2 - i) * 8))) (0 : UInt32)
  let arr ← divInPlace MAX_DIFFICULTY num
  -- the quotient moved `shift` bytes to the right
  .ok (List.Vector.ofFn fun position =>
    if position.val < shift then 0 else arr.get ⟨position - shift, by omega⟩)

/-- The compact target of the next difficulty period. -/
def computeNewNbits (prevTime startTime : UInt32) (prevTarget : Bytes32) : Exec UInt32 := do
  let timeSpan ← sub32 prevTime startTime
  let timeSpan := if timeSpan < TARGET_TIMESPAN_DIV_4 then TARGET_TIMESPAN_DIV_4 else timeSpan
  let timeSpan := if timeSpan > TARGET_TIMESPAN_MUL_4 then TARGET_TIMESPAN_MUL_4 else timeSpan
  let prevTarget ← mulInPlace prevTarget timeSpan
  let prevTarget ← divInPlace prevTarget TARGET_TIMESPAN
  if gtArr prevTarget UNROUNDED_MAX_TARGET then .ok (targetToNbits UNROUNDED_MAX_TARGET)
  else .ok (targetToNbits prevTarget)

def shouldDiffAdjust (blockHeight : UInt32) : Bool :=
  blockHeight % DIFF_ADJUSTMENT_INTERVAL = 0

def hasCorrectDifficultyTarget (prevCommittedHeader : CommittedBlockHeader)
    (currentNbits : UInt32) : Exec Bool := do
  let prevNbits := prevCommittedHeader.header.nbits
  let height ← add32 prevCommittedHeader.blockheight 1
  if shouldDiffAdjust height then do
    let prevTarget ← nbitsToTarget prevNbits
    let prevTime := prevCommittedHeader.header.timestamp
    let startTime := prevCommittedHeader.lastDiffAdjustment
    let newNbits ← computeNewNbits prevTime startTime prevTarget
    .ok (currentNbits = newNbits)
  else .ok (currentNbits = prevNbits)

/-- Whether a timestamp exceeds the median of eleven, by counting the smaller ones. -/
def isLargerThanMedian (arr : List.Vector UInt32 10) (additional currTimestamp : UInt32) : Bool :=
  let amt := arr.toList.foldl (fun amt time => if currTimestamp > time then amt + 1 else amt) 0
  let amt := if currTimestamp > additional then amt + 1 else amt
  amt > 5

def headerTopic (rt : Runtime) (blockHash : Bytes32) : Pubkey :=
  -- the first seed is the text "header"
  rt.findProgramAddress [[0x68, 0x65, 0x61, 0x64, 0x65, 0x72], blockHash.toList]

/-- The timestamps with the oldest dropped and a new one appended. -/
def shiftTimestamps (arr : List.Vector UInt32 10) (timestamp : UInt32) : List.Vector UInt32 10 :=
  List.Vector.snoc arr.tail timestamp

/-- The check of the difficulty target, left out of a build for the test network. -/
def requireDifficultyTarget (rt : Runtime) (lastCommitedHeader : CommittedBlockHeader)
    (nbits : UInt32) : Exec Unit :=
  if rt.bitcoinTestnet then .ok ()
  else do
    let correct ← hasCorrectDifficultyTarget lastCommitedHeader nbits
    require correct .errDiffTarget

/-- Checks a header on top of a committed one, and returns the new committed header with
the block hash. -/
def verifyHeader (rt : Runtime) (header : BlockHeader)
    (lastCommitedHeader : CommittedBlockHeader) (remainingAccount : Pubkey)
    (unixTimestamp : ℤ) : Exec (CommittedBlockHeader × Bytes32) := do
  requireDifficultyTarget rt lastCommitedHeader header.nbits
  let timestamp := header.timestamp
  let height ← add32 lastCommitedHeader.blockheight 1
  let lastDiffAdjustment :=
    if shouldDiffAdjust height then timestamp else lastCommitedHeader.lastDiffAdjustment
  let lastBlockHash := header.getBlockHash rt
  require (headerTopic rt lastBlockHash = remainingAccount) .invalidHeaderTopic
  let blockHash := lastBlockHash.reverse
  let target ← nbitsToTarget header.nbits
  require (lteArr blockHash target) .errPowToolow
  let prevBlockTimestamp := lastCommitedHeader.header.timestamp
  require (isLargerThanMedian lastCommitedHeader.prevBlockTimestamps prevBlockTimestamp timestamp)
    .errTimestampToolow
  let currentTimestamp ← nowTs unixTimestamp
  let latest ← add32 currentTimestamp MAX_FUTURE_BLOCKTIME
  require (timestamp < latest) .errTimestampTooHigh
  let blockheight ← add32 lastCommitedHeader.blockheight 1
  let prevBlockTimestamps :=
    shiftTimestamps lastCommitedHeader.prevBlockTimestamps prevBlockTimestamp
  let difficulty ← getDifficulty target
  let chainWork ← addInPlace lastCommitedHeader.chainWork difficulty
  .ok ({ chainWork, header, lastDiffAdjustment, blockheight, prevBlockTimestamps }, lastBlockHash)

/-- The Merkle root that a proof claims for a transaction. -/
def computeMerkle (rt : Runtime) (reversedTxid : Bytes32) (txIndex : UInt32)
    (reversedMerkleProof : List Bytes32) : Bytes32 :=
  if reversedMerkleProof.isEmpty then reversedTxid
  else
    (reversedMerkleProof.foldl (fun (currentHash, txIndex) piece =>
      let bytes :=
        if txIndex &&& 0x1 = 0 then currentHash.toList ++ piece.toList
        else piece.toList ++ currentHash.toList
      (rt.sha256d bytes, txIndex >>> 1)) (reversedTxid, txIndex)).1

/-- The witness script of a receiver's deposits. -/
def bridgeDepositScript (solanaPub : Pubkey) (bitcoinPubkeyHash : List.Vector UInt8 20) :
    List UInt8 :=
  -- a push of 32 bytes, OP_DROP, OP_HASH160, a push of 20 bytes, OP_EQUALVERIFY, OP_CHECKSIG
  [0x20] ++ solanaPub.toList ++ [0x75, 0xa9, 0x14] ++ bitcoinPubkeyHash.toList ++ [0x88, 0xac]

def p2wshScriptPubkey (rt : Runtime) (script : List UInt8) : List UInt8 :=
  [0x00, 0x20] ++ (rt.sha256 script).toList

/-- The output script of a receiver's deposits. -/
def expectedScriptPubkey (rt : Runtime) (solanaPub : Pubkey) : List UInt8 :=
  p2wshScriptPubkey rt (bridgeDepositScript solanaPub (rt.hash160 BITCOIN_DEPOSIT_PUBKEY))

def bridgeMintAmount (rt : Runtime) (bitcoinTx : Transaction) (solanaPub : Pubkey) :
    Exec UInt64 :=
  (bitcoinTx.output.filter fun out => out.scriptPubkey = expectedScriptPubkey rt solanaPub).foldlM
    (fun total out => add64 total out.value) 0

end BtcRelay
