import BtcRelay.Foundations.Readers
import BtcRelay.Program.Runtime
import Mathlib.Data.Nat.Digits.Defs

/-!
# The transaction parser

The parser of raw transactions in `txutils.rs`. It keeps an offset into the data, which is
the state of the readers here: each of them returns what is read at the offset and moves the
offset past it. The offsets are 64-bit and their sums are checked, and a slice of the data
whose bounds are out of range panics.
-/

namespace BtcRelay

open Exec Readers

structure Utxo where
  hash : Bytes32
  index : UInt32
deriving DecidableEq

structure TxInput where
  utxo : Utxo
  sequence : UInt32
deriving DecidableEq

structure TxOutput where
  value : UInt64
  script : List UInt8
deriving DecidableEq

structure BitcoinTransaction where
  version : UInt32
  txIn : List TxInput
  txOut : List TxOutput
  locktime : UInt32
  hash : Bytes32
  witness : Bool
deriving DecidableEq

abbrev Parser (α : Type) := Reader UInt8 Failure α

def addUsize (left right : ℕ) : Exec ℕ := fitsIn 64 (left + right)

/-- A slice `data[start..stop]`. -/
def sliceOf (data : List UInt8) (start stop : ℕ) : Exec (List UInt8) :=
  if start ≤ stop ∧ stop ≤ data.length then .ok (slice data start stop) else abort

def fromLeBytes (bytes : List UInt8) : ℕ := Nat.ofDigits 256 (bytes.map UInt8.toNat)

def tryIntoHash (bytes : List UInt8) : Exec Bytes32 :=
  if length : bytes.length = 32 then .ok ⟨bytes, length⟩ else abort

/-- Reads a variable-length integer at an index, and returns it with its width. -/
def readVarInt (data : List UInt8) (start : ℕ) : Exec (ℕ × ℕ) := do
  let first ← unwrap data[start]?
  if first ≤ 0xFC then .ok (first.toNat, 1)
  else if first = 0xFD then do
    let bytes ← sliceOf data (start + 1) (start + 3)
    .ok (fromLeBytes bytes, 3)
  else if first = 0xFE then do
    let bytes ← sliceOf data (start + 1) (start + 5)
    .ok (fromLeBytes bytes, 5)
  else do
    let bytes ← sliceOf data (start + 1) (start + 9)
    .ok (fromLeBytes bytes, 9)

section Steps

/-- Moves the offset without looking at the data. -/
def skipBytes (count : ℕ) : Parser Unit := fun _ offset => do
  let stop ← addUsize offset count
  .ok ((), stop)

def takeBytes (count : ℕ) : Parser (List UInt8) := fun data offset => do
  let stop ← addUsize offset count
  let bytes ← sliceOf data offset stop
  .ok (bytes, stop)

def takeU32 : Parser UInt32 := fun data => do
  let bytes ← takeBytes 4 data
  return UInt32.ofNat (fromLeBytes bytes)

def takeU64 : Parser UInt64 := fun data => do
  let bytes ← takeBytes 8 data
  return UInt64.ofNat (fromLeBytes bytes)

def takeHash : Parser Bytes32 := fun data => do
  let bytes ← takeBytes 32 data
  tryIntoHash bytes

def takeVarInt : Parser ℕ := fun data offset => do
  let (number, width) ← readVarInt data offset
  let offset ← addUsize offset width
  .ok (number, offset)

end Steps

/-- The number of inputs with an empty script so far, in an `i32`. -/
def countWitnessInput (witnessInputCount scriptLen : ℕ) : Exec ℕ :=
  if scriptLen = 0 then fitsIn 31 (witnessInputCount + 1) else .ok witnessInputCount

/-- Moves past the script of an input with its length. -/
def skipScript (witnessInputCount : ℕ) : Parser ℕ := fun data offset => do
  let (scriptLen, width) ← readVarInt data offset
  let witnessInputCount ← countWitnessInput witnessInputCount scriptLen
  let totalLen ← addUsize scriptLen width
  let offset ← addUsize offset totalLen
  .ok (witnessInputCount, offset)

/-- One round of the loop over the inputs. -/
def parseInput (witnessInputCount : ℕ) : Parser (TxInput × ℕ) := fun data => do
  let prevTxHash ← takeHash data
  let utxoIndex ← takeU32 data
  let witnessInputCount ← skipScript witnessInputCount data
  let sequence ← takeU32 data
  return ({ utxo := { hash := prevTxHash, index := utxoIndex }, sequence }, witnessInputCount)

def parseOutput : Parser TxOutput := fun data => do
  let value ← takeU64 data
  let scriptLen ← takeVarInt data
  let script ← takeBytes scriptLen data
  return { value, script }

/-- The inputs, the number of them with an empty script and the outputs. -/
def parseInputsAndOutputs : Parser (List TxInput × ℕ × List TxOutput) := fun data => do
  let inputSize ← takeVarInt data
  let (inputs, witnessInputCount) ← loop parseInput inputSize 0 data
  let outputSize ← takeVarInt data
  let outputs ← repeated parseOutput outputSize data
  return (inputs, witnessInputCount, outputs)

def skipWitnessItem : Parser Unit := fun data => do
  let witnessData ← takeVarInt data
  skipBytes witnessData data

/-- Moves past the witness of one input. -/
def skipWitness : Parser Unit := fun data => do
  let witnessSize ← takeVarInt data
  let _ ← repeated skipWitnessItem witnessSize data
  return ()

def skipWitnesses (witnessInputCount : ℕ) : Parser Unit := fun data => do
  let _ ← repeated skipWitness witnessInputCount data
  return ()

/-- What the parser has found before it hashes, with the bytes that it hashes. -/
structure ParsedFields where
  version : UInt32
  txIn : List TxInput
  txOut : List TxOutput
  locktime : UInt32
  witness : Bool
  hashed : List UInt8
deriving DecidableEq

/-- The bytes that the id is computed from: all of the data, or the data without the marker, the
flag and the witnesses. -/
def hashedBytes (data : List UInt8) (flag : UInt8) (witnessStartIndex offset : ℕ) :
    Exec (List UInt8) :=
  if flag = 0 then do
    let version ← sliceOf data 0 4
    let body ← sliceOf data 6 witnessStartIndex
    let locktimeStart ← subUsize offset 4
    let rest ← sliceOf data locktimeStart data.length
    .ok (version ++ body ++ rest)
  else .ok data

def parseFields (data : List UInt8) : Exec ParsedFields := do
  let versionBytes ← sliceOf data 0 4
  let version := UInt32.ofNat (fromLeBytes versionBytes)
  let flag ← unwrap data[4]?
  let offset := if 1 < version ∧ flag = 0 then 6 else 4
  let ((txIn, witnessInputCount, txOut), witnessStartIndex) ← parseInputsAndOutputs data offset
  let ((), offset) ←
    (if flag = 0 then skipWitnesses witnessInputCount data witnessStartIndex
    else .ok ((), witnessStartIndex) : Exec (Unit × ℕ))
  let (locktime, offset) ← takeU32 data offset
  let hashed ← hashedBytes data flag witnessStartIndex offset
  .ok { version, txIn, txOut, locktime, witness := flag = 0, hashed }

def parseTransaction (rt : Runtime) (data : List UInt8) : Exec BitcoinTransaction := do
  let fields ← parseFields data
  .ok {
    version := fields.version
    txIn := fields.txIn
    txOut := fields.txOut
    locktime := fields.locktime
    hash := rt.sha256d fields.hashed
    witness := fields.witness }

end BtcRelay
