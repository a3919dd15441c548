import BtcRelay.Network.Replay
import BtcRelay.Transactions.Layout

/-!
# What the hash of a parsed transaction commits to

Where the parser skips a marker before the inputs, it leaves the same bytes out of what it
hashes, and the bytes that it reads the fields from are those that the hash commits to. Of
versions up to one it skips no marker and still leaves the bytes out: there a transaction
without inputs gets the id of one that it does not show.
-/

namespace BtcRelay

open Exec Readers Sample

/-- The fields of a parsed transaction are those of a transaction. -/
structure BitcoinTransaction.Shows (parsed : BitcoinTransaction) (tx : Transaction) : Prop where
  version : parsed.version = tx.version
  txIn : parsed.txIn = tx.input.map TxIn.toTxInput
  txOut : parsed.txOut = tx.output.map TxOut.toTxOutput
  locktime : parsed.locktime = tx.lockTime

/-- A serialized transaction of a version up to one with two bytes put in after the version, the
first of them a zero. -/
def Transaction.Spliced (tx : Transaction) (data : List UInt8) : Prop :=
  tx.version ≤ 1 ∧ data[4]? = some 0 ∧ data.take 4 ++ data.drop 6 = tx.serialize

variable {tx : Transaction} {version locktime : UInt32} {body tail more rest : List UInt8}
  {txIn : List TxInput} {witnessInputCount : ℕ} {txOut : List TxOutput}

/-- Bytes that the inputs and outputs are read from and that a transaction's serialization starts
with are its inputs and outputs. -/
theorem Transaction.read_unique
    (reads : Reads (2 ^ 64) parseInputsAndOutputs body (txIn, witnessInputCount, txOut))
    (same : body ++ tail = tx.serializeBody ++ more) (bound : (body ++ tail).length < 2 ^ 64) :
    tx.emptyScripts < 2 ^ 31 ∧ body = tx.serializeBody ∧ txIn = tx.input.map TxIn.toTxInput ∧
      witnessInputCount = tx.emptyScripts ∧ txOut = tx.output.map TxOut.toTxOutput := by
  by_cases few : tx.emptyScripts < 2 ^ 31
  · rcases reads.unique (reads_serializeBody tx few) same bound with ⟨bytes, results⟩
    simp only [Prod.mk.injEq] at results
    exact ⟨few, bytes, results⟩
  · exfalso
    exact reads.not_fails same bound (fails_serializeBody tx (Nat.le_of_not_lt few))

theorem leBytes_append_inj {left right : UInt32} (same : leBytes left ++ tail = leBytes right ++ more) :
    left = right ∧ tail = more := by
  rcases List.append_inj same rfl with ⟨bytes, tails⟩
  exact ⟨leBytes_injective bytes, tails⟩

/-- What is read from a string that is a transaction's serialization shows the transaction. -/
theorem Transaction.shows_of_serialize
    (reads : Reads (2 ^ 64) parseInputsAndOutputs body (txIn, witnessInputCount, txOut))
    (same : leBytes version ++ (body ++ (leBytes locktime ++ rest)) = tx.serialize)
    (bound : (body ++ (leBytes locktime ++ rest)).length < 2 ^ 64) (hash : Bytes32)
    (witness : Bool) :
    BitcoinTransaction.Shows { version, txIn, txOut, locktime, hash, witness } tx := by
  rw [serialize_eq] at same
  rcases leBytes_append_inj same with ⟨versions, bodies⟩
  rcases Transaction.read_unique reads bodies bound with ⟨_, bytes, inputs, _, outputs⟩
  rw [bytes, List.append_right_inj, ← List.append_nil (leBytes tx.lockTime)] at bodies
  exact ⟨versions, inputs, outputs, (leBytes_append_inj bodies).1⟩

/-- A parsed transaction shows every transaction whose id it has unless the data is that
transaction with two bytes put in. -/
theorem shows_of_txid_iff {rt : Runtime} {data : List UInt8} {parsed : BitcoinTransaction}
    (hasInput : tx.input ≠ []) (bound : data.length < 2 ^ 64)
    (returned : parseTransaction rt data = .ok parsed)
    (collisionFree : ∀ fields, parseFields data = .ok fields →
      Set.InjOn rt.sha256d {fields.hashed, tx.serialize}) :
    (parsed.hash = tx.txid rt → parsed.Shows tx) ↔ ¬tx.Spliced data := by
  rcases Exec.bind_eq_ok_iff.mp returned with ⟨fields, found, finished⟩
  cases finished
  have commits : rt.sha256d fields.hashed = tx.txid rt → fields.hashed = tx.serialize :=
    fun same => collisionFree fields found (by simp) (by simp) same
  cases layout_of_parseFields found with
  | unmarked version locktime rest marker reads =>
      constructor
      · rintro _ ⟨_, zero, _⟩
        exact marker (Option.some.inj zero)
      · intro _ same
        simp only [List.length_append] at bound
        exact Transaction.shows_of_serialize reads (commits same)
          (by simp only [List.length_append]; omega) _ _
  | marked locktime flag rest late reads skips =>
      constructor
      · rintro _ ⟨early, _, whole⟩
        rw [serialize_eq] at whole
        rw [← (leBytes_append_inj whole).1] at early
        exact UInt32.not_lt.mpr early late
      · intro _ same
        simp only [List.length_append] at bound
        exact Transaction.shows_of_serialize reads (commits same)
          (by simp only [List.length_append]; omega) _ _
  | misread locktime rest early reads =>
      constructor
      · rintro shows ⟨_, _, whole⟩
        have none := (shows (congrArg rt.sha256d whole)).txIn
        exact hasInput (List.map_eq_nil_iff.mp none.symm)
      · intro notSpliced same
        exfalso
        apply notSpliced
        have whole := commits same
        have versions := whole
        rw [serialize_eq] at versions
        rw [(leBytes_append_inj versions).1] at early
        exact ⟨early, rfl, whole⟩

/-- Where only the serialization is hashed, there is nothing to collide. -/
theorem injOn_of_hashed {rt : Runtime} {data : List UInt8} {results : ParsedFields}
    (found : parseFields data = .ok results) (hashed : results.hashed = tx.serialize)
    (fields : ParsedFields) (same : parseFields data = .ok fields) :
    Set.InjOn rt.sha256d {fields.hashed, tx.serialize} := by
  rw [found] at same
  cases same
  rw [hashed, Set.pair_eq_singleton]
  exact Set.injOn_singleton rt.sha256d tx.serialize

theorem shows_of_txid_iff_deposit :
    ∃ parsed, parseTransaction mainnet depositTx.serialize = .ok parsed ∧
      parsed.Shows depositTx := by
  have hasInput : depositTx.input ≠ [] := List.cons_ne_nil _ _
  have few : depositTx.emptyScripts < 2 ^ 31 := by decide
  have bound : depositTx.serialize.length < 2 ^ 64 := by decide
  have found := parseFields_of_layout (layout_serialize hasInput few) bound
  have returned := parseTransaction_serialize mainnet hasInput few bound
  have notSpliced : ¬depositTx.Spliced depositTx.serialize := by
    rintro ⟨early, _⟩
    exact absurd early (by decide)
  exact ⟨_, returned, (shows_of_txid_iff hasInput bound returned
    (injOn_of_hashed found rfl)).mpr notSpliced rfl⟩

/-- Every transaction of a version up to one is spliced into data with its id that shows neither
inputs nor outputs. -/
theorem parse_spliced (rt : Runtime) (tx : Transaction) (early : tx.version ≤ 1)
    (bound : (leBytes tx.version ++ ([0, 0] ++
      (tx.serializeBody ++ leBytes tx.lockTime))).length < 2 ^ 64) :
    ∃ locktime, parseTransaction rt
        (leBytes tx.version ++ ([0, 0] ++ (tx.serializeBody ++ leBytes tx.lockTime))) =
      .ok { version := tx.version, txIn := [], txOut := [], locktime, hash := tx.txid rt
            witness := true } := by
  let fakeLocktime := (tx.serializeBody ++ leBytes tx.lockTime).take 4
  have length : fakeLocktime.length = 4 := by
    apply List.length_take_of_le
    simp
  have split : leBytes (UInt32.ofNat (fromLeBytes fakeLocktime)) ++
      (tx.serializeBody ++ leBytes tx.lockTime).drop 4 =
        tx.serializeBody ++ leBytes tx.lockTime := by
    rw [leBytes_fromLeBytes length]
    exact List.take_append_drop 4 _
  -- no inputs and no outputs
  have reads : Reads (2 ^ 64) parseInputsAndOutputs ([0, 0] ++ []) ([], 0, []) :=
    reads_serializeBody { version := 0, lockTime := 0, input := [], output := [] } (by decide)
  have layout := Layout.misread (UInt32.ofNat (fromLeBytes fakeLocktime))
    ((tx.serializeBody ++ leBytes tx.lockTime).drop 4) early reads
  rw [split, List.append_nil, List.nil_append, ← serialize_eq] at layout
  refine ⟨UInt32.ofNat (fromLeBytes fakeLocktime), ?_⟩
  exact parseTransaction_of_fields rt (parseFields_of_layout layout bound)

/-- The deposit in a transaction of the first version. -/
def earlyTx : Transaction := { depositTx with version := 1 }

theorem not_shows_spliced :
    ∃ parsed, parseTransaction mainnet (leBytes earlyTx.version ++ ([0, 0] ++
        (earlyTx.serializeBody ++ leBytes earlyTx.lockTime))) = .ok parsed ∧
      parsed.hash = earlyTx.txid mainnet ∧ earlyTx.input ≠ [] ∧ ¬parsed.Shows earlyTx := by
  rcases parse_spliced mainnet earlyTx (by decide) (by decide) with
    ⟨locktime, returned⟩
  refine ⟨_, returned, rfl, List.cons_ne_nil _ _, ?_⟩
  intro shows
  exact absurd shows.txIn (List.cons_ne_nil _ _).symm

end BtcRelay
