import BtcRelay.Transactions.Commitment

/-!
# Parsing what the network serializes

Of a serialization with witnesses the parser skips one witness for every input with an empty
signature script, and it looks for a marker only from version two on. So it gives a transaction
back exactly if the transaction has no witnesses, or is of a later version and has only empty
signature scripts; and the inputs with an empty one must not be too many for its counter.
-/

namespace BtcRelay

open Exec Readers Sample

namespace Transaction

/-- What the parser shows of a transaction. -/
def toBitcoinTransaction (rt : Runtime) (tx : Transaction) : BitcoinTransaction where
  version := tx.version
  txIn := tx.input.map TxIn.toTxInput
  txOut := tx.output.map TxOut.toTxOutput
  locktime := tx.lockTime
  hash := tx.txid rt
  witness := tx.HasWitness

end Transaction

variable {tx : Transaction} {data more : List UInt8} {fields : ParsedFields}

theorem emptyScripts_eq_length_iff :
    tx.emptyScripts = tx.input.length ↔ ∀ txIn ∈ tx.input, txIn.scriptSig = [] := by
  rw [Transaction.emptyScripts, List.countP_eq_length]
  simp only [decide_eq_true_iff, List.length_eq_zero_iff]

/-- Witnesses that are skipped by one round for each of some inputs are those of these inputs. -/
theorem skipped_witnesses {count : ℕ} {witnesses tail : List UInt8} (within : count ≤ tx.input.length)
    (skips : Reads (2 ^ 64) (skipWitnesses count) witnesses ())
    (same : tx.input.flatMap TxIn.serializeWitness ++ more = witnesses ++ tail)
    (bound : (witnesses ++ tail).length < 2 ^ 64) :
    tail = (tx.input.drop count).flatMap TxIn.serializeWitness ++ more := by
  have taken := reads_skipWitnesses (tx.input.take count)
  rw [List.length_take_of_le within] at taken
  have parts : witnesses ++ tail = (tx.input.take count).flatMap TxIn.serializeWitness ++
      ((tx.input.drop count).flatMap TxIn.serializeWitness ++ more) := by
    rw [← same, ← List.append_assoc, ← List.flatMap_append, List.take_append_drop]
  rw [(skips.unique taken parts bound).1] at parts
  exact List.append_cancel_left parts

/-- The inputs and outputs of a transaction without witnesses are found only if the counter of
empty scripts does not overflow. -/
theorem few_of_layout (layout : Layout data fields) (here : data = tx.serialize)
    (bound : data.length < 2 ^ 64) (hasInput : tx.input ≠ []) : tx.emptyScripts < 2 ^ 31 := by
  rw [serialize_eq] at here
  rcases Transaction.serializeBody_eq_cons hasInput with ⟨byte, bytes, body, nonzero⟩
  cases layout with
  | unmarked version locktime rest marker reads =>
      simp only [List.length_append] at bound
      exact (Transaction.read_unique reads (leBytes_append_inj here).2
        (by simp only [List.length_append]; omega)).1
  | marked locktime flag rest late reads skips =>
      have tails := (leBytes_append_inj here).2
      rw [body] at tails
      exact absurd (List.cons.inj tails).1.symm nonzero
  | misread locktime rest early reads =>
      have tails := (leBytes_append_inj here).2
      rw [body] at tails
      exact absurd (List.cons.inj tails).1.symm nonzero

/-- A transaction whose serialization with witnesses is parsed with its inputs and its id is of a
later version and has only empty signature scripts. -/
theorem empty_of_layout (layout : Layout data fields)
    (here : data = leBytes tx.version ++ ([0x00, 0x01] ++ (tx.serializeBody ++
      (tx.input.flatMap TxIn.serializeWitness ++ leBytes tx.lockTime))))
    (bound : data.length < 2 ^ 64) (inputs : fields.txIn ≠ [])
    (hashed : fields.hashed = tx.serialize) :
    tx.emptyScripts < 2 ^ 31 ∧ 1 < tx.version ∧ tx.emptyScripts = tx.input.length := by
  cases layout with
  | unmarked version locktime rest marker reads =>
      have tails := (leBytes_append_inj here).2
      exact absurd (List.cons.inj tails).1 marker
  | marked locktime flag rest late reads skips =>
      rcases leBytes_append_inj here with ⟨rfl, tails⟩
      have bodies := (List.append_inj tails rfl).2
      simp only [List.length_append] at bound
      rcases Transaction.read_unique reads bodies (by simp only [List.length_append]; omega) with
        ⟨few, rfl, _, rfl, _⟩
      refine ⟨few, late, ?_⟩
      have within : tx.emptyScripts ≤ tx.input.length := List.countP_le_length
      have skipped := List.append_cancel_left bodies
      have left := skipped_witnesses within skips skipped.symm
        (by simp only [List.length_append]; omega)
      -- what the hash is taken of ends with the locktime, so no witness is left
      rw [serialize_eq] at hashed
      have ends := List.append_cancel_left (List.append_cancel_left hashed)
      have noBytes := congrArg List.length (left.symm.trans ends)
      have none := length_le_flatMap (tx.input.drop tx.emptyScripts) TxIn.serializeWitness
        (fun txIn _ => txIn.length_serializeWitness_pos)
      simp only [List.length_append, List.length_drop] at noBytes none
      omega
  | misread locktime rest early reads => exact absurd rfl inputs

/-- The fields of a transaction that the parser gives back, and the bytes that its id is computed
from. -/
theorem parseFields_networkSerialize (hasInput : tx.input ≠ []) (few : tx.emptyScripts < 2 ^ 31)
    (given : tx.HasWitness → 1 < tx.version ∧ tx.emptyScripts = tx.input.length)
    (fits : tx.networkSerialize.length < 2 ^ 64) :
    parseFields tx.networkSerialize =
      .ok { version := tx.version, txIn := tx.input.map TxIn.toTxInput
            txOut := tx.output.map TxOut.toTxOutput, locktime := tx.lockTime
            witness := tx.HasWitness, hashed := tx.serialize } := by
  apply parseFields_of_layout ?_ fits
  by_cases hasWitness : tx.HasWitness
  · rcases given hasWitness with ⟨late, empty⟩
    rw [Transaction.networkSerialize, if_pos hasWitness, decide_eq_true hasWitness]
    exact layout_marked late few empty
  · rw [Transaction.networkSerialize, if_neg hasWitness, decide_eq_false hasWitness]
    exact layout_serialize hasInput few

/-- A transaction is given back by the parser exactly if it has no witnesses, or is of a version
from two on and has only empty signature scripts, and the empty ones can be counted. -/
theorem parseTransaction_networkSerialize_iff {rt : Runtime} (hasInput : tx.input ≠ [])
    (fits : tx.networkSerialize.length < 2 ^ 64)
    (collisionFree : ∀ fields, parseFields tx.networkSerialize = .ok fields →
      Set.InjOn rt.sha256d {fields.hashed, tx.serialize}) :
    parseTransaction rt tx.networkSerialize = .ok (tx.toBitcoinTransaction rt) ↔
      tx.emptyScripts < 2 ^ 31 ∧
        (tx.HasWitness → 1 < tx.version ∧ ∀ txIn ∈ tx.input, txIn.scriptSig = []) := by
  rw [← emptyScripts_eq_length_iff]
  constructor
  · intro returned
    rcases Exec.bind_eq_ok_iff.mp returned with ⟨fields, found, finished⟩
    have layout := layout_of_parseFields found
    have shown := Except.ok.inj finished
    simp only [Transaction.toBitcoinTransaction, BitcoinTransaction.mk.injEq] at shown
    rcases shown with ⟨_, inputs, _, _, hashes, _⟩
    have hashed : fields.hashed = tx.serialize :=
      collisionFree fields found (by simp) (by simp) hashes
    by_cases hasWitness : tx.HasWitness
    · have someInputs : fields.txIn ≠ [] := by
        rw [inputs]
        simpa using hasInput
      rcases empty_of_layout layout (if_pos hasWitness) fits someInputs hashed with
        ⟨few, late, empty⟩
      exact ⟨few, fun _ => ⟨late, empty⟩⟩
    · have few := few_of_layout layout (if_neg hasWitness) fits hasInput
      exact ⟨few, fun has => absurd has hasWitness⟩
  · rintro ⟨few, given⟩
    exact parseTransaction_of_fields rt (parseFields_networkSerialize hasInput few given fits)

/-- The deposit in a transaction with a witness. -/
def segwitTx : Transaction :=
  { depositTx with input := depositTx.input.map fun txIn => { txIn with witness := [[1, 2]] } }

theorem parseTransaction_networkSerialize_segwit :
    parseTransaction mainnet segwitTx.networkSerialize =
      .ok (segwitTx.toBitcoinTransaction mainnet) := by
  have hasInput : segwitTx.input ≠ [] := List.cons_ne_nil _ _
  have fits : segwitTx.networkSerialize.length < 2 ^ 64 := by decide
  have few : segwitTx.emptyScripts < 2 ^ 31 := by decide
  have empty : segwitTx.emptyScripts = segwitTx.input.length := by decide
  have given : segwitTx.HasWitness →
      1 < segwitTx.version ∧ ∀ txIn ∈ segwitTx.input, txIn.scriptSig = [] :=
    fun _ => ⟨by decide, emptyScripts_eq_length_iff.mp empty⟩
  have found := parseFields_networkSerialize hasInput few (fun _ => ⟨by decide, empty⟩) fits
  exact (parseTransaction_networkSerialize_iff hasInput fits
    (injOn_of_hashed found rfl)).mpr ⟨few, given⟩

/-- The same with a signature script, as where a witness program is paid through a script hash. -/
def wrappedTx : Transaction :=
  { segwitTx with input := segwitTx.input.map fun txIn => { txIn with scriptSig := [0x00, 0x14] } }

theorem not_parseTransaction_wrapped :
    wrappedTx.input ≠ [] ∧ parseTransaction mainnet wrappedTx.networkSerialize ≠
      .ok (wrappedTx.toBitcoinTransaction mainnet) := by
  refine ⟨List.cons_ne_nil _ _, ?_⟩
  intro returned
  rcases Exec.bind_eq_ok_iff.mp returned with ⟨fields, found, finished⟩
  have shown := congrArg BitcoinTransaction.locktime (Except.ok.inj finished)
  -- the locktime is read from the witness, which is not skipped
  have taken : (parseFields wrappedTx.networkSerialize).map ParsedFields.locktime =
      .ok 0x02010201 := by
    decide +kernel
  rw [found] at taken
  have locktime : fields.locktime = 0x02010201 := Except.ok.inj taken
  rw [show fields.locktime = 0 from shown] at locktime
  exact absurd locktime (by decide)

end BtcRelay
