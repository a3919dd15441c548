import BtcRelay.Network.Deployment
import BtcRelay.Transactions.Parser

/-!
# The serialization of transactions

How the Bitcoin network serializes a transaction: with a marker, a flag and the witnesses of
its inputs if one of them has a witness, and otherwise as its id is computed. The id leaves the
witnesses out.
-/

namespace BtcRelay

open BigEndian

namespace TxIn

def serialize (txIn : TxIn) : List UInt8 :=
  txIn.previousTxid.toList ++ leBytes txIn.previousVout ++ compactSize txIn.scriptSig.length ++
    txIn.scriptSig ++ leBytes txIn.sequence

def serializeWitness (txIn : TxIn) : List UInt8 :=
  compactSize txIn.witness.length ++
    txIn.witness.flatMap fun item => compactSize item.length ++ item

/-- What the parser shows of an input. -/
def toTxInput (txIn : TxIn) : TxInput where
  utxo := { hash := txIn.previousTxid, index := txIn.previousVout }
  sequence := txIn.sequence

end TxIn

namespace TxOut

def serialize (out : TxOut) : List UInt8 :=
  leBytes64 out.value ++ compactSize out.scriptPubkey.length ++ out.scriptPubkey

def toTxOutput (out : TxOut) : TxOutput where
  value := out.value
  script := out.scriptPubkey

end TxOut

namespace Transaction

def HasWitness (tx : Transaction) : Prop := ∃ txIn ∈ tx.input, txIn.witness ≠ []

instance (tx : Transaction) : Decidable tx.HasWitness :=
  inferInstanceAs (Decidable (∃ txIn ∈ tx.input, txIn.witness ≠ []))

/-- The inputs and outputs, each with their number. -/
def serializeBody (tx : Transaction) : List UInt8 :=
  compactSize tx.input.length ++ (tx.input.flatMap TxIn.serialize ++
    (compactSize tx.output.length ++ tx.output.flatMap TxOut.serialize))

def networkSerialize (tx : Transaction) : List UInt8 :=
  if tx.HasWitness then
    leBytes tx.version ++ ([0x00, 0x01] ++ (tx.serializeBody ++
      (tx.input.flatMap TxIn.serializeWitness ++ leBytes tx.lockTime)))
  else tx.serialize

def txid (rt : Runtime) (tx : Transaction) : Bytes32 := rt.sha256d tx.serialize

/-- The number of inputs with an empty signature script. -/
def emptyScripts (tx : Transaction) : ℕ :=
  tx.input.countP fun txIn => txIn.scriptSig.length = 0

end Transaction

/-- A variable-length integer, in any of its widths. -/
inductive VarInt : List UInt8 → ℕ → Prop
  | small {first : UInt8} (fits : first ≤ 0xFC) : VarInt [first] first.toNat
  | wide2 {bytes : List UInt8} (length : bytes.length = 2) :
      VarInt (0xFD :: bytes) (fromLeBytes bytes)
  | wide4 {bytes : List UInt8} (length : bytes.length = 4) :
      VarInt (0xFE :: bytes) (fromLeBytes bytes)
  | wide8 {bytes : List UInt8} (length : bytes.length = 8) :
      VarInt (0xFF :: bytes) (fromLeBytes bytes)

section

theorem serialize_eq (tx : Transaction) :
    tx.serialize = leBytes tx.version ++ (tx.serializeBody ++ leBytes tx.lockTime) := by
  have inputs : (fun txIn : TxIn => txIn.previousTxid.toList ++ leBytes txIn.previousVout ++
      compactSize txIn.scriptSig.length ++ txIn.scriptSig ++ leBytes txIn.sequence) =
        TxIn.serialize := rfl
  have outputs : (fun out : TxOut => leBytes64 out.value ++
      compactSize out.scriptPubkey.length ++ out.scriptPubkey) = TxOut.serialize := rfl
  rw [Transaction.serialize, inputs, outputs, Transaction.serializeBody]
  simp only [List.append_assoc]

theorem fromLeBytes_reverse {n : ℕ} (digits : List.Vector UInt8 n) :
    fromLeBytes digits.toList.reverse = value digits := rfl

theorem fromLeBytes_leBytes (number : UInt32) : fromLeBytes (leBytes number) = number.toNat := by
  have bound := number.toNat_lt
  have one : UInt32.toNat 8 % 32 = 8 := rfl
  have two : UInt32.toNat 16 % 32 = 16 := rfl
  have three : UInt32.toNat 24 % 32 = 24 := rfl
  simp only [fromLeBytes, leBytes, List.map_cons, List.map_nil, Nat.ofDigits_cons,
    Nat.ofDigits_nil, UInt32.toNat_toUInt8, UInt32.toNat_shiftRight, Nat.shiftRight_eq_div_pow,
    one, two, three]
  omega

theorem toNat_lt_of_mem {bytes : List UInt8} {digit : ℕ}
    (member : digit ∈ bytes.map UInt8.toNat) : digit < 256 := by
  rcases List.mem_map.mp member with ⟨byte, _, rfl⟩
  exact byte.toNat_lt

theorem fromLeBytes_injective {left right : List UInt8} (length : left.length = right.length)
    (same : fromLeBytes left = fromLeBytes right) : left = right := by
  have bytes : Function.Injective UInt8.toNat := fun _ _ => UInt8.toNat_inj.mp
  apply List.map_injective_iff.mpr bytes
  apply Nat.ofDigits_inj_of_len_eq (b := 256) (by decide)
  · simp only [List.length_map, length]
  · intro digit member
    exact toNat_lt_of_mem member
  · intro digit member
    exact toNat_lt_of_mem member
  · exact same

theorem leBytes_fromLeBytes {bytes : List UInt8} (length : bytes.length = 4) :
    leBytes (UInt32.ofNat (fromLeBytes bytes)) = bytes := by
  have bound := Nat.ofDigits_lt_base_pow_length (b := 256) (l := bytes.map UInt8.toNat)
    (by decide) (fun digit member => toNat_lt_of_mem member)
  rw [List.length_map, length] at bound
  apply fromLeBytes_injective (by rw [length, leBytes_length])
  rw [fromLeBytes_leBytes]
  exact UInt32.toNat_ofNat_of_lt' bound

theorem fromLeBytes_leBytes64 (number : UInt64) :
    fromLeBytes (leBytes64 number) = number.toNat := by
  have bound := number.toNat_lt
  rw [leBytes64, fromLeBytes_reverse, value_ofNat]
  exact Nat.mod_eq_of_lt bound

theorem length_leBytes64 (number : UInt64) : (leBytes64 number).length = 8 := by
  simp [leBytes64]

theorem varInt_compactSize {number : ℕ} (bound : number < 2 ^ 64) :
    VarInt (compactSize number) number := by
  have wide : ∀ width : ℕ, number < 256 ^ width →
      fromLeBytes (ofNat width number).toList.reverse = number := by
    intro width fits
    rw [fromLeBytes_reverse, value_ofNat, Nat.mod_eq_of_lt fits]
  have lengths : ∀ width : ℕ, (ofNat width number).toList.reverse.length = width := by
    intro width
    simp
  rw [compactSize]
  split
  · rename_i fits
    have byte : (UInt8.ofNat number).toNat = number := by
      rw [UInt8.toNat_ofNat']
      omega
    have small : VarInt [UInt8.ofNat number] (UInt8.ofNat number).toNat :=
      VarInt.small (UInt8.le_iff_toNat_le.mpr (by rw [byte]; exact Nat.le_of_lt_succ fits))
    rw [byte] at small
    exact small
  · split
    · rename_i fits
      have two := VarInt.wide2 (lengths 2)
      rw [wide 2 (by omega)] at two
      exact two
    · split
      · rename_i fits
        have four := VarInt.wide4 (lengths 4)
        rw [wide 4 (by omega)] at four
        exact four
      · have eight := VarInt.wide8 (lengths 8)
        rw [wide 8 (by omega)] at eight
        exact eight

/-- The encoding of a positive number does not start with a zero byte. -/
theorem compactSize_eq_cons {number : ℕ} (positive : 0 < number) :
    ∃ first rest, compactSize number = first :: rest ∧ first ≠ 0 := by
  rw [compactSize]
  split
  · rename_i fits
    refine ⟨_, [], rfl, ?_⟩
    intro zero
    have byte : (UInt8.ofNat number).toNat = 0 := by
      rw [zero]
      rfl
    rw [UInt8.toNat_ofNat'] at byte
    omega
  · split
    · exact ⟨_, _, rfl, by decide⟩
    · split
      · exact ⟨_, _, rfl, by decide⟩
      · exact ⟨_, _, rfl, by decide⟩

end

end BtcRelay
