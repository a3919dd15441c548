import BtcRelay.Transactions.Serialization

/-!
# Readings of the parser

What each step of the parser reads, and that it looks only at the bytes that it moves over.
-/

namespace BtcRelay

open Exec Readers

section Bytes

variable {before string rest data : List UInt8} {start stop count : ℕ}

theorem sliceOf_eq_ok_iff {bytes : List UInt8} :
    sliceOf data start stop = .ok bytes ↔
      start ≤ stop ∧ stop ≤ data.length ∧ bytes = slice data start stop := by
  unfold sliceOf
  split
  · rename_i within
    rw [Except.ok.injEq, eq_comm]
    exact ⟨fun same => ⟨within.1, within.2, same⟩, fun sliced => sliced.2.2⟩
  · rename_i outside
    constructor
    · intro aborted
      exact absurd aborted abort_ne_ok
    · intro sliced
      exact absurd ⟨sliced.1, sliced.2.1⟩ outside

theorem addUsize_eq_ok_iff {left right sum : ℕ} :
    addUsize left right = .ok sum ↔ left + right < 2 ^ 64 ∧ sum = left + right :=
  fitsIn_eq_ok_iff

theorem sliceOf_of_append :
    sliceOf (before ++ (string ++ rest)) before.length (before.length + string.length) =
      .ok string := by
  apply sliceOf_eq_ok_iff.mpr
  refine ⟨Nat.le_add_right _ _, ?_, slice_of_append.symm⟩
  simp

theorem sliceOf_of_eq (here : data = before ++ (string ++ rest)) (starts : before.length = start)
    (stops : start + string.length = stop) : sliceOf data start stop = .ok string := by
  subst here starts stops
  exact sliceOf_of_append

theorem sliceOf_to_end (here : data = before ++ string) (starts : before.length = start) :
    sliceOf data start data.length = .ok string := by
  have whole : data = before ++ (string ++ []) := by rw [List.append_nil, here]
  apply sliceOf_of_eq whole starts
  rw [here, List.length_append, starts]

theorem sliceOf_start (here : data = string ++ rest) (stops : string.length = stop) :
    sliceOf data 0 stop = .ok string := by
  have whole : data = [] ++ (string ++ rest) := here
  apply sliceOf_of_eq whole rfl
  rw [List.length_nil, Nat.zero_add, stops]

theorem reads_skipBytes (string : List UInt8) :
    Reads (2 ^ 64) (skipBytes string.length) string () := by
  intro before rest bound
  apply Exec.bind_eq_ok_iff.mpr
  exact ⟨_, addUsize_eq_ok_iff.mpr ⟨end_lt bound, rfl⟩, rfl⟩

theorem reads_takeBytes (string : List UInt8) :
    Reads (2 ^ 64) (takeBytes string.length) string string := by
  intro before rest bound
  apply Exec.bind_eq_ok_iff.mpr
  refine ⟨_, addUsize_eq_ok_iff.mpr ⟨end_lt bound, rfl⟩, ?_⟩
  apply Exec.bind_eq_ok_iff.mpr
  exact ⟨string, sliceOf_of_append, rfl⟩

theorem local_skipBytes (count : ℕ) : Local (2 ^ 64) (skipBytes count) := by
  intro data start result stop run
  rcases Exec.bind_eq_ok_iff.mp run with ⟨sum, added, finished⟩
  rcases addUsize_eq_ok_iff.mp added with ⟨_, rfl⟩
  cases finished
  refine ⟨Nat.le_add_right start count, ?_⟩
  intro within
  have reads := reads_skipBytes (slice data start (start + count))
  rw [length_slice_add within] at reads
  exact reads

theorem local_takeBytes (count : ℕ) : Local (2 ^ 64) (takeBytes count) := by
  intro data start result stop run
  rcases Exec.bind_eq_ok_iff.mp run with ⟨sum, added, sliced⟩
  rcases addUsize_eq_ok_iff.mp added with ⟨_, rfl⟩
  rcases Exec.bind_eq_ok_iff.mp sliced with ⟨bytes, cut, finished⟩
  rcases sliceOf_eq_ok_iff.mp cut with ⟨_, within, rfl⟩
  cases finished
  refine ⟨Nat.le_add_right start count, ?_⟩
  intro _
  have reads := reads_takeBytes (slice data start (start + count))
  rw [length_slice_add within] at reads
  exact reads

theorem reads_takeU32 (number : UInt32) : Reads (2 ^ 64) takeU32 (leBytes number) number := by
  apply (reads_takeBytes (leBytes number)).bind_pure
  rw [fromLeBytes_leBytes, UInt32.ofNat_toNat]

theorem reads_takeU64 (number : UInt64) : Reads (2 ^ 64) takeU64 (leBytes64 number) number := by
  have reads := reads_takeBytes (leBytes64 number)
  rw [length_leBytes64] at reads
  apply reads.bind_pure
  rw [fromLeBytes_leBytes64, UInt64.ofNat_toNat]

theorem reads_takeHash (hash : Bytes32) : Reads (2 ^ 64) takeHash hash.toList hash := by
  have reads := reads_takeBytes hash.toList
  rw [hash.toList_length] at reads
  rw [← List.append_nil hash.toList]
  apply reads.bind
  apply Reads.lift
  exact dif_pos hash.toList_length

theorem local_takeU32 : Local (2 ^ 64) takeU32 := by
  apply (local_takeBytes 4).bind
  intro bytes
  exact Local.pure (2 ^ 64) (UInt32.ofNat (fromLeBytes bytes))

theorem local_takeU64 : Local (2 ^ 64) takeU64 := by
  apply (local_takeBytes 8).bind
  intro bytes
  exact Local.pure (2 ^ 64) (UInt64.ofNat (fromLeBytes bytes))

theorem local_takeHash : Local (2 ^ 64) takeHash := by
  apply (local_takeBytes 32).bind
  intro bytes
  exact Local.lift (2 ^ 64) (tryIntoHash bytes)

end Bytes

section VarInts

variable {before bytes rest data : List UInt8} {start number width : ℕ}

theorem sliceOf_after_first (first : UInt8) (length : bytes.length = width) :
    sliceOf (before ++ ((first :: bytes) ++ rest)) (before.length + 1)
      (before.length + (width + 1)) = .ok bytes := by
  have split : before ++ ((first :: bytes) ++ rest) = (before ++ [first]) ++ (bytes ++ rest) := by
    simp
  have starts : before.length + 1 = (before ++ [first]).length := by simp
  have stops : before.length + (width + 1) = (before ++ [first]).length + bytes.length := by
    simp only [List.length_append, List.length_singleton]
    omega
  rw [split, starts, stops]
  exact sliceOf_of_append

theorem first_of_append (first : UInt8) :
    unwrap (before ++ ((first :: bytes) ++ rest))[before.length]? = .ok first := by
  simp

theorem wide_read (first : UInt8) (length : bytes.length = width) (before rest : List UInt8) :
    (sliceOf (before ++ ((first :: bytes) ++ rest)) (before.length + 1)
        (before.length + (width + 1)) >>=
      fun taken => (.ok (fromLeBytes taken, width + 1) : Exec (ℕ × ℕ))) =
      .ok (fromLeBytes bytes, (first :: bytes).length) := by
  rw [sliceOf_after_first first length, List.length_cons, length]
  rfl

/-- Every variable-length integer is read as its value. -/
theorem VarInt.read (varInt : VarInt bytes number) (before rest : List UInt8) :
    readVarInt (before ++ (bytes ++ rest)) before.length = .ok (number, bytes.length) := by
  apply Exec.bind_eq_ok_iff.mpr
  cases varInt with
  | small fits =>
      refine ⟨_, first_of_append _, ?_⟩
      rw [if_pos fits]
      rfl
  | wide2 length =>
      refine ⟨_, first_of_append _, ?_⟩
      rw [if_neg (by decide), if_pos rfl]
      exact wide_read 0xFD length before rest
  | wide4 length =>
      refine ⟨_, first_of_append _, ?_⟩
      rw [if_neg (by decide), if_neg (by decide), if_pos rfl]
      exact wide_read 0xFE length before rest
  | wide8 length =>
      refine ⟨_, first_of_append _, ?_⟩
      rw [if_neg (by decide), if_neg (by decide), if_neg (by decide)]
      exact wide_read 0xFF length before rest

/-- What a wide branch reads is a variable-length integer with its first byte. -/
theorem varInt_of_wide {first : UInt8} {count : ℕ} (here : data[start]? = some first)
    (encodes : ∀ {bytes}, bytes.length = count → VarInt (first :: bytes) (fromLeBytes bytes))
    (branch : (sliceOf data (start + 1) (start + (count + 1)) >>=
      fun taken => (.ok (fromLeBytes taken, count + 1) : Exec (ℕ × ℕ))) = .ok (number, width)) :
    start + width ≤ data.length ∧ VarInt (slice data start (start + width)) number := by
  rcases Exec.bind_eq_ok_iff.mp branch with ⟨taken, cut, finished⟩
  cases finished
  rcases sliceOf_eq_ok_iff.mp cut with ⟨ordered, within, rfl⟩
  refine ⟨within, ?_⟩
  rw [slice_eq_cons here count]
  apply encodes
  rw [length_slice ordered within]
  omega

/-- Only variable-length integers are read. -/
theorem varInt_of_readVarInt (read : readVarInt data start = .ok (number, width)) :
    start + width ≤ data.length ∧ VarInt (slice data start (start + width)) number := by
  rcases Exec.bind_eq_ok_iff.mp read with ⟨first, unwrapped, branch⟩
  have here := unwrap_eq_ok_iff.mp unwrapped
  split at branch
  · rename_i fits
    cases branch
    rw [slice_eq_cons here 0, slice_self]
    exact ⟨(List.getElem?_eq_some_iff.mp here).1, VarInt.small fits⟩
  · rename_i large
    split at branch
    · rename_i two
      subst two
      exact varInt_of_wide here VarInt.wide2 branch
    · rename_i notTwo
      split at branch
      · rename_i four
        subst four
        exact varInt_of_wide here VarInt.wide4 branch
      · rename_i notFour
        have eight : first = 0xFF := by
          rw [UInt8.le_iff_toNat_le] at large
          rw [← UInt8.toNat_inj] at notTwo notFour ⊢
          have bound := first.toNat_lt
          simp only [UInt8.reduceToNat] at large notTwo notFour ⊢
          omega
        subst eight
        exact varInt_of_wide here VarInt.wide8 branch

theorem reads_takeVarInt (varInt : VarInt bytes number) :
    Reads (2 ^ 64) takeVarInt bytes number := by
  intro before rest bound
  apply Exec.bind_eq_ok_iff.mpr
  refine ⟨_, varInt.read before rest, ?_⟩
  apply Exec.bind_eq_ok_iff.mpr
  exact ⟨_, addUsize_eq_ok_iff.mpr ⟨end_lt bound, rfl⟩, rfl⟩

theorem local_takeVarInt : Local (2 ^ 64) takeVarInt := by
  intro data start result stop run
  rcases Exec.bind_eq_ok_iff.mp run with ⟨⟨number, width⟩, read, added⟩
  rcases Exec.bind_eq_ok_iff.mp added with ⟨sum, fits, finished⟩
  rcases addUsize_eq_ok_iff.mp fits with ⟨_, rfl⟩
  cases finished
  refine ⟨Nat.le_add_right start width, ?_⟩
  intro _
  exact reads_takeVarInt (varInt_of_readVarInt read).2

end VarInts

section Inputs

variable {bytes script : List UInt8} {witnessInputCount counted : ℕ}

theorem reads_skipScript {scriptLen : ℕ} (varInt : VarInt bytes scriptLen)
    (length : script.length = scriptLen)
    (counts : countWitnessInput witnessInputCount scriptLen = .ok counted) :
    Reads (2 ^ 64) (skipScript witnessInputCount) (bytes ++ script) counted := by
  subst length
  intro before rest bound
  have read := varInt.read before (script ++ rest)
  rw [← List.append_assoc bytes] at read
  simp only [List.length_append] at bound
  have total : script.length + bytes.length < 2 ^ 64 := by omega
  have within : before.length + (script.length + bytes.length) < 2 ^ 64 := by omega
  apply Exec.bind_eq_ok_iff.mpr
  refine ⟨_, read, ?_⟩
  apply Exec.bind_eq_ok_iff.mpr
  refine ⟨counted, counts, ?_⟩
  apply Exec.bind_eq_ok_iff.mpr
  refine ⟨_, addUsize_eq_ok_iff.mpr ⟨total, rfl⟩, ?_⟩
  apply Exec.bind_eq_ok_iff.mpr
  refine ⟨_, addUsize_eq_ok_iff.mpr ⟨within, rfl⟩, ?_⟩
  rw [List.length_append, Nat.add_comm script.length]

theorem fails_skipScript (varInt : VarInt bytes script.length) {failure : Failure}
    (counts : countWitnessInput witnessInputCount script.length = .error failure) :
    Fails (2 ^ 64) (skipScript witnessInputCount) (bytes ++ script) := by
  intro before rest _
  have read := varInt.read before (script ++ rest)
  rw [← List.append_assoc bytes] at read
  refine ⟨failure, ?_⟩
  unfold skipScript
  simp only [read, counts, ok_bind, error_bind]

end Inputs

section Serializations

/-- Serializations that are not empty are at least as long as there are of them. -/
theorem length_le_flatMap {ι : Type} (items : List ι) (encode : ι → List UInt8)
    (positive : ∀ item ∈ items, 0 < (encode item).length) :
    items.length ≤ (items.flatMap encode).length := by
  have ones := List.length_le_sum_of_one_le (items.map fun item => (encode item).length)
  rw [List.length_map] at ones
  rw [List.length_flatMap]
  apply ones
  intro length member
  rcases List.mem_map.mp member with ⟨item, itemMem, rfl⟩
  exact positive item itemMem

theorem compactSize_pos (number : ℕ) : 0 < (compactSize number).length := by
  unfold compactSize
  split_ifs <;> simp

theorem TxIn.serialize_eq (txIn : TxIn) :
    txIn.serialize = txIn.previousTxid.toList ++ (leBytes txIn.previousVout ++
      ((compactSize txIn.scriptSig.length ++ txIn.scriptSig) ++ leBytes txIn.sequence)) := by
  simp only [TxIn.serialize, List.append_assoc]

theorem TxIn.length_serialize_pos (txIn : TxIn) : 0 < txIn.serialize.length := by
  have hash := txIn.previousTxid.toList_length
  simp only [TxIn.serialize_eq, List.length_append, hash]
  omega

theorem TxOut.serialize_eq (out : TxOut) :
    out.serialize =
      leBytes64 out.value ++ (compactSize out.scriptPubkey.length ++ out.scriptPubkey) := by
  simp only [TxOut.serialize, List.append_assoc]

theorem TxOut.length_serialize_pos (out : TxOut) : 0 < out.serialize.length := by
  have value := length_leBytes64 out.value
  simp only [TxOut.serialize_eq, List.length_append, value]
  omega

variable {witnessInputCount counted : ℕ} {txIn : TxIn}

theorem TxIn.scriptSig_fits (fits : txIn.serialize.length < 2 ^ 64) :
    txIn.scriptSig.length < 2 ^ 64 := by
  simp only [TxIn.serialize_eq, List.length_append] at fits
  omega

theorem reads_parseInput
    (counts : countWitnessInput witnessInputCount txIn.scriptSig.length = .ok counted) :
    Reads (2 ^ 64) (parseInput witnessInputCount) txIn.serialize (txIn.toTxInput, counted) := by
  apply Reads.of_fits
  intro fits
  have varInt := varInt_compactSize (TxIn.scriptSig_fits fits)
  rw [TxIn.serialize_eq]
  apply (reads_takeHash txIn.previousTxid).bind
  apply (reads_takeU32 txIn.previousVout).bind
  apply (reads_skipScript varInt rfl counts).bind
  exact (reads_takeU32 txIn.sequence).bind_pure rfl

theorem fails_parseInput {failure : Failure}
    (counts : countWitnessInput witnessInputCount txIn.scriptSig.length = .error failure) :
    Fails (2 ^ 64) (parseInput witnessInputCount) txIn.serialize := by
  apply Fails.of_fits
  intro fits
  have varInt := varInt_compactSize (TxIn.scriptSig_fits fits)
  rw [TxIn.serialize_eq]
  apply (reads_takeHash txIn.previousTxid).bind_fails
  apply (reads_takeU32 txIn.previousVout).bind_fails
  exact (fails_skipScript varInt counts).bind

theorem countWitnessInput_of_empty (witnessInputCount : ℕ) (empty : txIn.scriptSig.length = 0)
    (small : witnessInputCount + 1 < 2 ^ 31) :
    countWitnessInput witnessInputCount txIn.scriptSig.length = .ok (witnessInputCount + 1) := by
  rw [countWitnessInput, if_pos empty]
  exact fitsIn_of_lt small

theorem countWitnessInput_overflow (empty : txIn.scriptSig.length = 0)
    (large : 2 ^ 31 ≤ witnessInputCount + 1) :
    countWitnessInput witnessInputCount txIn.scriptSig.length = .error .abort := by
  rw [countWitnessInput, if_pos empty]
  exact if_neg (Nat.not_lt.mpr large)

/-- The inputs are read as long as the counter of empty scripts does not overflow. -/
theorem reads_inputs (inputs : List TxIn) (witnessInputCount : ℕ)
    (few : witnessInputCount + inputs.countP (·.scriptSig.length = 0) < 2 ^ 31) :
    Reads (2 ^ 64) (loop parseInput inputs.length witnessInputCount)
      (inputs.flatMap TxIn.serialize)
      (inputs.map TxIn.toTxInput,
        witnessInputCount + inputs.countP (·.scriptSig.length = 0)) := by
  induction inputs generalizing witnessInputCount with
  | nil => exact Reads.loop_zero (2 ^ 64) witnessInputCount
  | cons txIn inputs ih =>
      rw [List.countP_cons] at few ⊢
      by_cases empty : txIn.scriptSig.length = 0
      · rw [if_pos (decide_eq_true empty)] at few ⊢
        have counts := countWitnessInput_of_empty witnessInputCount empty (by omega)
        have rest := ih (witnessInputCount + 1) (by omega)
        rw [Nat.add_right_comm] at rest
        exact (reads_parseInput counts).loop_succ rest
      · rw [if_neg (by simpa using empty)] at few ⊢
        have counts : countWitnessInput witnessInputCount txIn.scriptSig.length =
            .ok witnessInputCount := if_neg empty
        exact (reads_parseInput counts).loop_succ (ih witnessInputCount few)

/-- The parser panics at the input whose empty script the counter cannot hold. -/
theorem fails_inputs (inputs : List TxIn) (witnessInputCount : ℕ) (small : witnessInputCount < 2 ^ 31)
    (many : 2 ^ 31 ≤ witnessInputCount + inputs.countP (·.scriptSig.length = 0)) :
    Fails (2 ^ 64) (loop parseInput inputs.length witnessInputCount)
      (inputs.flatMap TxIn.serialize) := by
  induction inputs generalizing witnessInputCount with
  | nil =>
      rw [List.countP_nil] at many
      omega
  | cons txIn inputs ih =>
      rw [List.countP_cons] at many
      by_cases empty : txIn.scriptSig.length = 0
      · rw [if_pos (decide_eq_true empty)] at many
        by_cases last : witnessInputCount + 1 < 2 ^ 31
        · have counts := countWitnessInput_of_empty witnessInputCount empty last
          exact (reads_parseInput counts).loop_succ_fails
            (ih (witnessInputCount + 1) last (by omega))
        · have counts := countWitnessInput_overflow empty (Nat.le_of_not_lt last)
          exact (fails_parseInput counts).loop_succ
      · rw [if_neg (by simpa using empty)] at many
        have counts : countWitnessInput witnessInputCount txIn.scriptSig.length =
            .ok witnessInputCount := if_neg empty
        exact (reads_parseInput counts).loop_succ_fails (ih witnessInputCount small many)

theorem reads_parseOutput (out : TxOut) :
    Reads (2 ^ 64) parseOutput out.serialize out.toTxOutput := by
  apply Reads.of_fits
  intro fits
  rw [TxOut.serialize_eq] at fits ⊢
  simp only [List.length_append] at fits
  apply (reads_takeU64 out.value).bind
  apply (reads_takeVarInt (varInt_compactSize (by omega))).bind
  exact (reads_takeBytes out.scriptPubkey).bind_pure rfl

theorem TxIn.length_serializeWitness_pos (txIn : TxIn) : 0 < txIn.serializeWitness.length := by
  have positive := compactSize_pos txIn.witness.length
  simp only [TxIn.serializeWitness, List.length_append]
  omega

theorem reads_skipWitnessItem (item : List UInt8) :
    Reads (2 ^ 64) skipWitnessItem (compactSize item.length ++ item) () := by
  apply Reads.of_fits
  intro fits
  simp only [List.length_append] at fits
  apply (reads_takeVarInt (varInt_compactSize (by omega))).bind
  exact reads_skipBytes item

theorem reads_skipWitness (txIn : TxIn) :
    Reads (2 ^ 64) skipWitness txIn.serializeWitness () := by
  apply Reads.of_fits
  intro fits
  have items := length_le_flatMap txIn.witness
    (fun item => compactSize item.length ++ item) (by
      intro item _
      exact Nat.lt_of_lt_of_le (compactSize_pos item.length) (by simp))
  simp only [TxIn.serializeWitness, List.length_append] at fits
  apply (reads_takeVarInt (varInt_compactSize (by omega))).bind
  exact (Reads.repeated (fun _ => ()) fun item _ =>
    reads_skipWitnessItem item).bind_pure rfl

/-- The witnesses of some inputs are skipped by as many rounds. -/
theorem reads_skipWitnesses (inputs : List TxIn) :
    Reads (2 ^ 64) (skipWitnesses inputs.length) (inputs.flatMap TxIn.serializeWitness) () :=
  (Reads.repeated (fun _ => ()) fun txIn _ => reads_skipWitness txIn).bind_pure rfl

variable {tx : Transaction}

theorem Transaction.lengths_fit (fits : tx.serializeBody.length < 2 ^ 64) :
    tx.input.length < 2 ^ 64 ∧ tx.output.length < 2 ^ 64 := by
  have inputs := length_le_flatMap tx.input TxIn.serialize
    (fun txIn _ => txIn.length_serialize_pos)
  have outputs := length_le_flatMap tx.output TxOut.serialize
    (fun out _ => out.length_serialize_pos)
  simp only [Transaction.serializeBody, List.length_append] at fits
  omega

theorem reads_serializeBody (tx : Transaction) (few : tx.emptyScripts < 2 ^ 31) :
    Reads (2 ^ 64) parseInputsAndOutputs tx.serializeBody
      (tx.input.map TxIn.toTxInput, tx.emptyScripts, tx.output.map TxOut.toTxOutput) := by
  apply Reads.of_fits
  intro fits
  rcases Transaction.lengths_fit fits with ⟨inputs, outputs⟩
  have counted := reads_inputs tx.input 0 (by rwa [Nat.zero_add])
  rw [Nat.zero_add] at counted
  apply (reads_takeVarInt (varInt_compactSize inputs)).bind
  apply counted.bind
  apply (reads_takeVarInt (varInt_compactSize outputs)).bind
  exact (Reads.repeated TxOut.toTxOutput fun out _ => reads_parseOutput out).bind_pure rfl

theorem fails_serializeBody (tx : Transaction) (many : 2 ^ 31 ≤ tx.emptyScripts) :
    Fails (2 ^ 64) parseInputsAndOutputs tx.serializeBody := by
  apply Fails.of_fits
  intro fits
  rcases Transaction.lengths_fit fits with ⟨inputs, _⟩
  apply (reads_takeVarInt (varInt_compactSize inputs)).bind_fails
  exact (fails_inputs tx.input 0 (by omega) (by rwa [Nat.zero_add])).bind

end Serializations

section Locality

theorem local_skipScript (witnessInputCount : ℕ) :
    Local (2 ^ 64) (skipScript witnessInputCount) := by
  intro data start result stop run
  rcases Exec.bind_eq_ok_iff.mp run with ⟨⟨scriptLen, width⟩, read, counting⟩
  rcases Exec.bind_eq_ok_iff.mp counting with ⟨counted, counts, totalling⟩
  rcases Exec.bind_eq_ok_iff.mp totalling with ⟨total, totals, moving⟩
  rcases Exec.bind_eq_ok_iff.mp moving with ⟨sum, moves, finished⟩
  rcases addUsize_eq_ok_iff.mp totals with ⟨_, rfl⟩
  rcases addUsize_eq_ok_iff.mp moves with ⟨_, rfl⟩
  cases finished
  have stops : start + (scriptLen + width) = start + width + scriptLen := by omega
  have read_within := varInt_of_readVarInt read
  rw [stops]
  refine ⟨by omega, ?_⟩
  intro within
  rw [← slice_append_slice data (Nat.le_add_right start width) (Nat.le_add_right _ scriptLen)]
  exact reads_skipScript read_within.2 (length_slice_add within) counts

theorem local_parseInput (witnessInputCount : ℕ) :
    Local (2 ^ 64) (parseInput witnessInputCount) := by
  apply local_takeHash.bind
  intro prevTxHash
  apply local_takeU32.bind
  intro utxoIndex
  apply (local_skipScript witnessInputCount).bind
  intro counted
  apply local_takeU32.bind
  intro sequence
  exact Local.pure (2 ^ 64) _

theorem local_parseOutput : Local (2 ^ 64) parseOutput := by
  apply local_takeU64.bind
  intro value
  apply local_takeVarInt.bind
  intro scriptLen
  apply (local_takeBytes scriptLen).bind
  intro script
  exact Local.pure (2 ^ 64) _

theorem local_parseInputsAndOutputs : Local (2 ^ 64) parseInputsAndOutputs := by
  apply local_takeVarInt.bind
  intro inputSize
  apply (Local.loop local_parseInput inputSize 0).bind
  rintro ⟨inputs, witnessInputCount⟩
  apply local_takeVarInt.bind
  intro outputSize
  apply (local_parseOutput.repeated outputSize).bind
  intro outputs
  exact Local.pure (2 ^ 64) (inputs, witnessInputCount, outputs)

theorem local_skipWitness : Local (2 ^ 64) skipWitness := by
  apply local_takeVarInt.bind
  intro witnessSize
  apply Local.bind
  · apply Local.repeated
    exact local_takeVarInt.bind local_skipBytes
  · intro _
    exact Local.pure (2 ^ 64) ()

theorem local_skipWitnesses (witnessInputCount : ℕ) :
    Local (2 ^ 64) (skipWitnesses witnessInputCount) := by
  apply (local_skipWitness.repeated witnessInputCount).bind
  intro _
  exact Local.pure (2 ^ 64) ()

end Locality

end BtcRelay
