import BtcRelay.Foundations.Sha256
import BtcRelay.Program.Instructions

/-!
# The deployed program

The functions that the program calls, as they are on Solana: SHA-256, the derivation of
program addresses for the program's id and the transaction ids of the `bitcoin` crate. The
decoder and the hash of the bridge's public key are given by what they return for the
transactions and the key that occur.
-/

namespace BtcRelay

open BigEndian

/-- The arithmetic of the curve that program addresses must not lie on. -/
def curvePrime : ℕ := 2 ^ 255 - 19

/-- A power modulo the prime of the curve, for exponents of a number of bits. -/
def powMod : ℕ → ℕ → ℕ → ℕ → ℕ
  | 0, _, _, product => product
  | bits + 1, base, exponent, product =>
      powMod bits (base * base % curvePrime) (exponent / 2)
        (if exponent % 2 = 1 then product * base % curvePrime else product)

/-- Whether an address is the encoding of a point of the curve `y² - x² = 1 + d x² y²`. -/
def isOnCurve (address : Pubkey) : Bool :=
  let d := 0x52036cee2b6ffe738cc740797779e89800700a4d4141d8ab75eb4dca135978a3
  -- the encoding is little-endian, with the sign of `x` in the top bit
  let y := value address.reverse % 2 ^ 255 % curvePrime
  let square := y * y % curvePrime
  let ratio := (square + curvePrime - 1) * (d * square + 1) % curvePrime
  powMod 254 ratio ((curvePrime - 1) / 2) 1 ≤ 1

def programId : Pubkey :=
  ofNat 32 0x25c4ce01b869d2e5741bf69354ec0af9f2f73cedb436f611240c080056fafc99

/-- The address of seeds with a bump seed; the last part is the text "ProgramDerivedAddress". -/
def createProgramAddress (seeds : List (List UInt8)) (bump : ℕ) : Pubkey :=
  Sha256.hash (seeds.flatten ++ [UInt8.ofNat bump] ++ programId.toList ++
    [0x50, 0x72, 0x6f, 0x67, 0x72, 0x61, 0x6d, 0x44, 0x65, 0x72, 0x69, 0x76, 0x65, 0x64, 0x41,
      0x64, 0x64, 0x72, 0x65, 0x73, 0x73])

/-- The first address off the curve, from the largest bump seed on. -/
def findProgramAddress (seeds : List (List UInt8)) : ℕ → Pubkey
  | 0 => emptyArray
  | bump + 1 =>
      let address := createProgramAddress seeds (bump + 1)
      if isOnCurve address then findProgramAddress seeds bump else address

def leBytes64 (number : UInt64) : List UInt8 := (ofNat 8 number.toNat).toList.reverse

def compactSize (length : ℕ) : List UInt8 :=
  if length < 0xfd then [UInt8.ofNat length]
  else if length < 2 ^ 16 then 0xfd :: (ofNat 2 length).toList.reverse
  else if length < 2 ^ 32 then 0xfe :: (ofNat 4 length).toList.reverse
  else 0xff :: (ofNat 8 length).toList.reverse

namespace Transaction

/-- The serialization that transaction ids are computed from. -/
def serialize (tx : Transaction) : List UInt8 :=
  leBytes tx.version ++ compactSize tx.input.length ++
    (tx.input.flatMap fun txIn => txIn.previousTxid.toList ++ leBytes txIn.previousVout ++
      compactSize txIn.scriptSig.length ++ txIn.scriptSig ++ leBytes txIn.sequence) ++
    compactSize tx.output.length ++
    (tx.output.flatMap fun out => leBytes64 out.value ++
      compactSize out.scriptPubkey.length ++ out.scriptPubkey) ++
    leBytes tx.lockTime

end Transaction

/-- The deployed program, in one of its builds, among some transactions. What follows a transaction
in the bytes to decode is ignored. -/
def deployed (bitcoinTestnet : Bool) (transactions : List Transaction) : Runtime where
  bitcoinTestnet
  sha256 := Sha256.hash
  hash160 _ := ofNat 20 0x7c90ed550edf836546691caa763c632bcc28a0f1
  findProgramAddress seeds := findProgramAddress seeds 255
  consensusDecode bytes := transactions.find? fun tx => tx.serialize.isPrefixOf bytes
  computeTxid tx := Sha256.hash (Sha256.hash tx.serialize).toList
  maxAccountSpace := 10240
  rentExemptMinimum space := UInt64.ofNat ((128 + space) * 6960)

end BtcRelay
