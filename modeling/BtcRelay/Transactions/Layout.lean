import BtcRelay.Transactions.Readings

/-!
# The layout of parsed data

The parser decides twice whether data has a marker, by different conditions: it reads the
inputs after the marker and the flag only of versions from two on, and leaves the two bytes out
of what it hashes for every version. So there are three layouts of the data from which it
returns.
-/

namespace BtcRelay

open Exec Readers

/-- How data is laid out from which the parser finds fields. -/
inductive Layout : List UInt8 → ParsedFields → Prop
  | unmarked (version locktime : UInt32) (rest : List UInt8) {first : UInt8} {body : List UInt8}
      {txIn : List TxInput} {witnessInputCount : ℕ} {txOut : List TxOutput} (marker : first ≠ 0)
      (reads : Reads (2 ^ 64) parseInputsAndOutputs (first :: body)
        (txIn, witnessInputCount, txOut)) :
      Layout (leBytes version ++ (first :: body ++ (leBytes locktime ++ rest)))
        { version, txIn, txOut, locktime, witness := false
          hashed := leBytes version ++ (first :: body ++ (leBytes locktime ++ rest)) }
  | marked {version : UInt32} (locktime : UInt32) (flag : UInt8) (rest : List UInt8)
      {body witnesses : List UInt8} {txIn : List TxInput} {witnessInputCount : ℕ}
      {txOut : List TxOutput} (late : 1 < version)
      (reads : Reads (2 ^ 64) parseInputsAndOutputs body (txIn, witnessInputCount, txOut))
      (skips : Reads (2 ^ 64) (skipWitnesses witnessInputCount) witnesses ()) :
      Layout
        (leBytes version ++ ([0, flag] ++ (body ++ (witnesses ++ (leBytes locktime ++ rest)))))
        { version, txIn, txOut, locktime, witness := true
          hashed := leBytes version ++ (body ++ (leBytes locktime ++ rest)) }
  | misread {version : UInt32} (locktime : UInt32) (rest : List UInt8) {second : UInt8}
      {body : List UInt8} {txOut : List TxOutput} (early : version ≤ 1)
      (reads : Reads (2 ^ 64) parseInputsAndOutputs ([0, second] ++ body) ([], 0, txOut)) :
      Layout (leBytes version ++ ([0, second] ++ body ++ (leBytes locktime ++ rest)))
        { version, txIn := [], txOut, locktime, witness := true
          hashed := leBytes version ++ (body ++ (leBytes locktime ++ rest)) }

section Steps

variable {data : List UInt8} {start stop : ℕ}

theorem takeU32_run {number : UInt32} (run : takeU32 data start = .ok (number, stop)) :
    stop = start + 4 ∧ stop ≤ data.length ∧ slice data start stop = leBytes number := by
  rcases Readers.bind_eq_ok_iff.mp run with ⟨bytes, middle, took, finished⟩
  cases finished
  rcases Exec.bind_eq_ok_iff.mp took with ⟨sum, added, sliced⟩
  rcases addUsize_eq_ok_iff.mp added with ⟨_, rfl⟩
  rcases Exec.bind_eq_ok_iff.mp sliced with ⟨taken, cut, done⟩
  rcases sliceOf_eq_ok_iff.mp cut with ⟨ordered, within, rfl⟩
  cases done
  refine ⟨rfl, within, ?_⟩
  exact (leBytes_fromLeBytes (length_slice_add within)).symm

/-- Inputs that start with a zero byte are none. -/
theorem parse_zero {txIn : List TxInput} {witnessInputCount : ℕ} {txOut : List TxOutput}
    (zero : data[start]? = some 0)
    (parsed : parseInputsAndOutputs data start = .ok ((txIn, witnessInputCount, txOut), stop)) :
    txIn = [] ∧ witnessInputCount = 0 := by
  rcases Readers.bind_eq_ok_iff.mp parsed with ⟨inputSize, afterSize, sized, looping⟩
  rcases Readers.bind_eq_ok_iff.mp looping with ⟨⟨inputs, counted⟩, afterInputs, looped, more⟩
  rcases Readers.bind_eq_ok_iff.mp more with ⟨outputSize, afterOutputSize, _, outputs⟩
  rcases Readers.bind_eq_ok_iff.mp outputs with ⟨results, afterOutputs, _, finished⟩
  cases finished
  have none : inputSize = 0 := by
    rcases Exec.bind_eq_ok_iff.mp sized with ⟨⟨number, width⟩, read, added⟩
    rcases Exec.bind_eq_ok_iff.mp added with ⟨sum, _, done⟩
    cases done
    rcases Exec.bind_eq_ok_iff.mp read with ⟨byte, unwrapped, branch⟩
    rw [zero] at unwrapped
    cases unwrapped
    cases branch
    rfl
  rw [none] at looped
  cases looped
  exact ⟨rfl, rfl⟩

/-- Nothing is parsed from no bytes. -/
theorem body_nonempty {body : List UInt8} {result : List TxInput × ℕ × List TxOutput}
    (reads : Reads (2 ^ 64) parseInputsAndOutputs body result) : body ≠ [] := by
  rintro rfl
  have run := reads [] [] (by decide)
  cases run

theorem slice_marker (marker : data[4]? = some 0) (long : 6 ≤ data.length) :
    ∃ second, slice data 4 6 = [0, second] := by
  have five : data[5]? = some data[5] := List.getElem?_eq_getElem long
  have first : slice data 4 6 = 0 :: slice data 5 6 := slice_eq_cons marker 1
  have second : slice data 5 6 = data[5] :: slice data 6 6 := slice_eq_cons five 0
  refine ⟨data[5], ?_⟩
  rw [first, second, slice_self]

theorem hashedBytes_zero {hashed : List UInt8}
    (hashing : hashedBytes data 0 start (stop + 4) = .ok hashed) :
    6 ≤ start ∧ start ≤ data.length ∧
      hashed = slice data 0 4 ++ (slice data 6 start ++ data.drop stop) := by
  rw [hashedBytes, if_pos rfl] at hashing
  rcases Exec.bind_eq_ok_iff.mp hashing with ⟨version, cutVersion, afterVersion⟩
  rcases Exec.bind_eq_ok_iff.mp afterVersion with ⟨body, cutBody, afterBody⟩
  rcases Exec.bind_eq_ok_iff.mp afterBody with ⟨locktimeStart, moved, afterMove⟩
  rcases Exec.bind_eq_ok_iff.mp afterMove with ⟨rest, cutRest, finished⟩
  rcases sliceOf_eq_ok_iff.mp cutVersion with ⟨_, _, rfl⟩
  rcases sliceOf_eq_ok_iff.mp cutBody with ⟨ordered, within, rfl⟩
  rcases sliceOf_eq_ok_iff.mp cutRest with ⟨_, _, rfl⟩
  have starts : locktimeStart = stop := Nat.add_right_cancel (subUsize_eq_ok_iff.mp moved)
  cases finished
  refine ⟨ordered, within, ?_⟩
  rw [slice_to_end, starts, List.append_assoc]

end Steps

section Soundness

variable {data hashed : List UInt8} {version locktime : UInt32} {flag : UInt8}
  {txIn : List TxInput} {witnessInputCount witnessStart witnessStop : ℕ} {txOut : List TxOutput}

theorem layout_of_unmarked (cut : slice data 0 4 = leBytes version)
    (marker : data[4]? = some flag) (nonzero : flag ≠ 0)
    (parsed : parseInputsAndOutputs data 4 =
      .ok ((txIn, witnessInputCount, txOut), witnessStart))
    (taken : slice data witnessStart (witnessStart + 4) = leBytes locktime)
    (within : witnessStart + 4 ≤ data.length) :
    Layout data { version, txIn, txOut, locktime, witness := false, hashed := data } := by
  rcases local_parseInputsAndOutputs _ _ _ _ parsed with ⟨ordered, reads⟩
  have readsBody := reads (by omega)
  have nonempty : witnessStart ≠ 4 := by
    rintro rfl
    exact body_nonempty readsBody slice_self
  obtain ⟨width, rfl⟩ : ∃ width, witnessStart = 4 + (width + 1) :=
    ⟨witnessStart - 5, by omega⟩
  have afterVersion := slice_append_drop data (Nat.zero_le 4)
  have afterBody := slice_append_drop data ordered
  have afterLocktime := slice_append_drop data (Nat.le_add_right (4 + (width + 1)) 4)
  rw [cut, List.drop_zero] at afterVersion
  rw [slice_eq_cons marker width] at readsBody afterBody
  rw [taken] at afterLocktime
  have layout := Layout.unmarked version locktime (data.drop (4 + (width + 1) + 4)) nonzero
    readsBody
  rw [afterLocktime, afterBody, afterVersion] at layout
  exact layout

theorem layout_of_marked (cut : slice data 0 4 = leBytes version) (marker : data[4]? = some 0)
    (late : 1 < version)
    (parsed : parseInputsAndOutputs data 6 =
      .ok ((txIn, witnessInputCount, txOut), witnessStart))
    (skipped : skipWitnesses witnessInputCount data witnessStart = .ok ((), witnessStop))
    (taken : slice data witnessStop (witnessStop + 4) = leBytes locktime)
    (within : witnessStop + 4 ≤ data.length)
    (hashing : hashedBytes data 0 witnessStart (witnessStop + 4) = .ok hashed) :
    Layout data { version, txIn, txOut, locktime, witness := true, hashed } := by
  rcases hashedBytes_zero hashing with ⟨six, inBody, hashes⟩
  rcases slice_marker marker (Nat.le_trans six inBody) with ⟨second, pair⟩
  rcases local_parseInputsAndOutputs _ _ _ _ parsed with ⟨ordered, reads⟩
  rcases local_skipWitnesses witnessInputCount _ _ _ _ skipped with ⟨skipOrdered, skips⟩
  have afterVersion := slice_append_drop data (Nat.zero_le 4)
  have afterMarker := slice_append_drop data (show 4 ≤ 6 by decide)
  have afterBody := slice_append_drop data ordered
  have afterWitnesses := slice_append_drop data skipOrdered
  have afterLocktime := slice_append_drop data (Nat.le_add_right witnessStop 4)
  rw [cut, List.drop_zero] at afterVersion
  rw [pair] at afterMarker
  rw [taken] at afterLocktime
  rw [cut, ← afterLocktime] at hashes
  have layout := Layout.marked locktime second (data.drop (witnessStop + 4)) late
    (reads inBody) (skips (by omega))
  rw [← hashes, afterLocktime, afterWitnesses, afterBody, afterMarker, afterVersion] at layout
  exact layout

theorem layout_of_misread (cut : slice data 0 4 = leBytes version) (marker : data[4]? = some 0)
    (early : version ≤ 1)
    (parsed : parseInputsAndOutputs data 4 =
      .ok ((txIn, witnessInputCount, txOut), witnessStart))
    (skipped : skipWitnesses witnessInputCount data witnessStart = .ok ((), witnessStop))
    (taken : slice data witnessStop (witnessStop + 4) = leBytes locktime)
    (hashing : hashedBytes data 0 witnessStart (witnessStop + 4) = .ok hashed) :
    Layout data { version, txIn, txOut, locktime, witness := true, hashed } := by
  -- the marker is read as the number of inputs, and no witness is skipped
  rcases parse_zero marker parsed with ⟨rfl, rfl⟩
  cases skipped
  rcases hashedBytes_zero hashing with ⟨six, inBody, hashes⟩
  rcases slice_marker marker (Nat.le_trans six inBody) with ⟨second, pair⟩
  rcases local_parseInputsAndOutputs _ _ _ _ parsed with ⟨ordered, reads⟩
  have readsBody := reads inBody
  have parts := slice_append_slice data (show 4 ≤ 6 by decide) six
  have afterVersion := slice_append_drop data (Nat.zero_le 4)
  have afterBody := slice_append_drop data ordered
  have afterLocktime := slice_append_drop data (Nat.le_add_right witnessStart 4)
  rw [cut, List.drop_zero] at afterVersion
  rw [← parts, pair] at readsBody afterBody
  rw [taken] at afterLocktime
  rw [cut, ← afterLocktime] at hashes
  have layout := Layout.misread locktime (data.drop (witnessStart + 4)) early readsBody
  rw [← hashes, afterLocktime, afterBody, afterVersion] at layout
  exact layout

/-- Data from which the parser finds fields is laid out in one of the three ways. -/
theorem layout_of_parseFields {fields : ParsedFields}
    (parsed : parseFields data = .ok fields) : Layout data fields := by
  rcases Exec.bind_eq_ok_iff.mp parsed with ⟨versionBytes, cutVersion, flagged⟩
  rcases Exec.bind_eq_ok_iff.mp flagged with ⟨flag, unwrapped, started⟩
  rcases Exec.bind_eq_ok_iff.mp started with
    ⟨⟨⟨txIn, witnessInputCount, txOut⟩, witnessStart⟩, parsedBody, skipping⟩
  rcases Exec.bind_eq_ok_iff.mp skipping with ⟨⟨⟨⟩, witnessStop⟩, skipped, taking⟩
  rcases Exec.bind_eq_ok_iff.mp taking with ⟨⟨locktime, stop⟩, took, rest⟩
  rcases Exec.bind_eq_ok_iff.mp rest with ⟨hashed, hashing, finished⟩
  cases finished
  rcases sliceOf_eq_ok_iff.mp cutVersion with ⟨_, long, rfl⟩
  rcases takeU32_run took with ⟨rfl, within, taken⟩
  have marker := unwrap_eq_ok_iff.mp unwrapped
  have cut := (leBytes_fromLeBytes (length_slice (Nat.zero_le 4) long)).symm
  by_cases zero : flag = 0
  · subst zero
    rw [if_pos rfl] at skipped
    by_cases late : 1 < UInt32.ofNat (fromLeBytes (slice data 0 4))
    · rw [if_pos ⟨late, rfl⟩] at parsedBody
      exact layout_of_marked cut marker late parsedBody skipped taken within hashing
    · rw [if_neg (fun both => late both.1)] at parsedBody
      exact layout_of_misread cut marker (UInt32.not_lt.mp late) parsedBody skipped taken hashing
  · rw [if_neg zero] at skipped
    cases skipped
    rw [hashedBytes, if_neg zero] at hashing
    cases hashing
    rw [if_neg (fun both => zero both.2)] at parsedBody
    rw [decide_eq_false zero]
    exact layout_of_unmarked cut marker zero parsedBody taken within

end Soundness

section Completeness

variable {version locktime : UInt32} {flag : UInt8} {data body witnesses rest hashed : List UInt8}
  {txIn : List TxInput} {witnessInputCount witnessStart witnessStop stop : ℕ}
  {txOut : List TxOutput}

/-- The steps of the parser one after the other. -/
theorem parseFields_of_steps (cut : sliceOf data 0 4 = .ok (leBytes version))
    (marker : data[4]? = some flag)
    (parsed : parseInputsAndOutputs data (if 1 < version ∧ flag = 0 then 6 else 4) =
      .ok ((txIn, witnessInputCount, txOut), witnessStart))
    (skipped : (if flag = 0 then skipWitnesses witnessInputCount data witnessStart
      else .ok ((), witnessStart)) = .ok ((), witnessStop))
    (took : takeU32 data witnessStop = .ok (locktime, stop))
    (hashing : hashedBytes data flag witnessStart stop = .ok hashed) :
    parseFields data =
      .ok { version, txIn, txOut, locktime, witness := flag = 0, hashed } := by
  unfold parseFields
  simp only [cut, marker, ok_bind, unwrap, fromLeBytes_leBytes, UInt32.ofNat_toNat, parsed,
    skipped, took, hashing]

theorem hashedBytes_of_slices (cut : sliceOf data 0 4 = .ok (leBytes version))
    (cutBody : sliceOf data 6 witnessStart = .ok body)
    (cutRest : sliceOf data witnessStop data.length = .ok rest) :
    hashedBytes data 0 witnessStart (witnessStop + 4) =
      .ok (leBytes version ++ (body ++ rest)) := by
  have back : subUsize (witnessStop + 4) 4 = .ok witnessStop := subUsize_eq_ok_iff.mpr rfl
  rw [hashedBytes, if_pos rfl]
  simp only [cut, cutBody, back, cutRest, ok_bind, List.append_assoc]

variable {first : UInt8}

theorem parseFields_unmarked (marker : first ≠ 0)
    (reads : Reads (2 ^ 64) parseInputsAndOutputs (first :: body) (txIn, witnessInputCount, txOut))
    (here : data = leBytes version ++ (first :: body ++ (leBytes locktime ++ rest)))
    (bound : data.length < 2 ^ 64) :
    parseFields data =
      .ok { version, txIn, txOut, locktime, witness := false, hashed := data } := by
  have cut := sliceOf_start here rfl
  have byte : data[4]? = some first := by
    rw [here]
    rfl
  have parsed := reads.run here rfl bound
  have atLocktime : data = (leBytes version ++ first :: body) ++ (leBytes locktime ++ rest) := by
    rw [here, List.append_assoc]
  have took := (reads_takeU32 locktime).run atLocktime List.length_append bound
  have fields := parseFields_of_steps cut byte
    (by rw [if_neg (fun late => marker late.2)]; exact parsed) (if_neg marker) took
    (if_neg marker)
  rw [decide_eq_false marker] at fields
  exact fields

theorem parseFields_marked (late : 1 < version)
    (reads : Reads (2 ^ 64) parseInputsAndOutputs body (txIn, witnessInputCount, txOut))
    (skips : Reads (2 ^ 64) (skipWitnesses witnessInputCount) witnesses ())
    (here : data = leBytes version ++ ([0, flag] ++
      (body ++ (witnesses ++ (leBytes locktime ++ rest)))))
    (bound : data.length < 2 ^ 64) :
    parseFields data =
      .ok { version, txIn, txOut, locktime, witness := true
            hashed := leBytes version ++ (body ++ (leBytes locktime ++ rest)) } := by
  have atBody : data = (leBytes version ++ [0, flag]) ++
      (body ++ (witnesses ++ (leBytes locktime ++ rest))) := by
    simp only [here, List.append_assoc]
  have atWitnesses : data = (leBytes version ++ [0, flag] ++ body) ++
      (witnesses ++ (leBytes locktime ++ rest)) := by
    simp only [here, List.append_assoc]
  have atLocktime : data = (leBytes version ++ [0, flag] ++ body ++ witnesses) ++
      (leBytes locktime ++ rest) := by
    simp only [here, List.append_assoc]
  have start : (leBytes version ++ [0, flag] ++ body ++ witnesses).length =
      6 + body.length + witnesses.length := by
    rw [List.length_append, List.length_append]
    rfl
  have cut := sliceOf_start here rfl
  have byte : data[4]? = some 0 := by
    rw [here]
    rfl
  have parsed : parseInputsAndOutputs data 6 = _ := reads.run atBody rfl bound
  have skipped : skipWitnesses witnessInputCount data (6 + body.length) = _ :=
    skips.run atWitnesses List.length_append bound
  have took := (reads_takeU32 locktime).run atLocktime start bound
  exact parseFields_of_steps cut byte (by rw [if_pos ⟨late, rfl⟩]; exact parsed)
    (by rw [if_pos rfl]; exact skipped) took
    (hashedBytes_of_slices cut (sliceOf_of_eq atBody rfl rfl) (sliceOf_to_end atLocktime start))

theorem parseFields_misread {second : UInt8} (early : version ≤ 1)
    (reads : Reads (2 ^ 64) parseInputsAndOutputs ([0, second] ++ body) ([], 0, txOut))
    (here : data = leBytes version ++ ([0, second] ++ body ++ (leBytes locktime ++ rest)))
    (bound : data.length < 2 ^ 64) :
    parseFields data =
      .ok { version, txIn := [], txOut, locktime, witness := true
            hashed := leBytes version ++ (body ++ (leBytes locktime ++ rest)) } := by
  have atBody : data = (leBytes version ++ [0, second]) ++
      (body ++ (leBytes locktime ++ rest)) := by
    simp only [here, List.append_assoc]
  have atLocktime : data = (leBytes version ++ ([0, second] ++ body)) ++
      (leBytes locktime ++ rest) := by
    simp only [here, List.append_assoc]
  have start : (leBytes version ++ ([0, second] ++ body)).length =
      4 + ([0, second] ++ body).length := List.length_append
  have stop : 6 + body.length = 4 + ([0, second] ++ body).length := by
    rw [List.length_append, ← Nat.add_assoc]
    rfl
  have cut := sliceOf_start here rfl
  have byte : data[4]? = some 0 := by
    rw [here]
    rfl
  have parsed : parseInputsAndOutputs data 4 = _ := reads.run here rfl bound
  have took := (reads_takeU32 locktime).run atLocktime start bound
  exact parseFields_of_steps cut byte
    (by rw [if_neg (fun late => UInt32.not_lt.mpr early late.1)]; exact parsed)
    (by rw [if_pos rfl]; rfl) took
    (hashedBytes_of_slices cut (sliceOf_of_eq atBody rfl stop) (sliceOf_to_end atLocktime start))

/-- From data that is laid out in one of the three ways the parser finds its fields. -/
theorem parseFields_of_layout {fields : ParsedFields} (layout : Layout data fields)
    (bound : data.length < 2 ^ 64) : parseFields data = .ok fields := by
  cases layout with
  | unmarked version locktime rest marker reads =>
      exact parseFields_unmarked marker reads rfl bound
  | marked locktime flag rest late reads skips =>
      exact parseFields_marked late reads skips rfl bound
  | misread locktime rest early reads => exact parseFields_misread early reads rfl bound

end Completeness

theorem parseFields_eq_ok_iff {data : List UInt8} {fields : ParsedFields}
    (bound : data.length < 2 ^ 64) : parseFields data = .ok fields ↔ Layout data fields :=
  ⟨layout_of_parseFields, fun layout => parseFields_of_layout layout bound⟩

theorem parseTransaction_of_fields (rt : Runtime) {data : List UInt8} {fields : ParsedFields}
    (found : parseFields data = .ok fields) :
    parseTransaction rt data =
      .ok { version := fields.version, txIn := fields.txIn, txOut := fields.txOut
            locktime := fields.locktime, hash := rt.sha256d fields.hashed
            witness := fields.witness } := by
  rw [parseTransaction, found]
  rfl

section Transactions

variable {tx : Transaction}

/-- The serialization of inputs does not start like a marker. -/
theorem Transaction.serializeBody_eq_cons (hasInput : tx.input ≠ []) :
    ∃ first rest, tx.serializeBody = first :: rest ∧ first ≠ 0 := by
  rcases compactSize_eq_cons (List.length_pos_iff.mpr hasInput) with ⟨first, rest, size, marker⟩
  rw [Transaction.serializeBody, size]
  exact ⟨first, _, rfl, marker⟩

/-- A serialization without witnesses has no marker, and all of it is hashed. -/
theorem layout_serialize (hasInput : tx.input ≠ []) (few : tx.emptyScripts < 2 ^ 31) :
    Layout tx.serialize
      { version := tx.version, txIn := tx.input.map TxIn.toTxInput
        txOut := tx.output.map TxOut.toTxOutput, locktime := tx.lockTime
        witness := false, hashed := tx.serialize } := by
  rcases Transaction.serializeBody_eq_cons hasInput with ⟨first, rest, body, marker⟩
  have reads := reads_serializeBody tx few
  rw [body] at reads
  have layout := Layout.unmarked tx.version tx.lockTime [] marker reads
  rw [List.append_nil, ← body, ← serialize_eq] at layout
  exact layout

/-- In a serialization with witnesses as many of them are skipped as there are empty scripts. -/
theorem layout_marked (late : 1 < tx.version) (few : tx.emptyScripts < 2 ^ 31)
    (empty : tx.emptyScripts = tx.input.length) :
    Layout
      (leBytes tx.version ++ ([0x00, 0x01] ++ (tx.serializeBody ++
        (tx.input.flatMap TxIn.serializeWitness ++ leBytes tx.lockTime))))
      { version := tx.version, txIn := tx.input.map TxIn.toTxInput
        txOut := tx.output.map TxOut.toTxOutput, locktime := tx.lockTime
        witness := true, hashed := tx.serialize } := by
  have skips := reads_skipWitnesses tx.input
  rw [← empty] at skips
  have layout := Layout.marked tx.lockTime 0x01 [] late (reads_serializeBody tx few) skips
  rw [List.append_nil, ← serialize_eq] at layout
  exact layout

theorem parseTransaction_serialize (rt : Runtime) (hasInput : tx.input ≠ [])
    (few : tx.emptyScripts < 2 ^ 31) (bound : tx.serialize.length < 2 ^ 64) :
    parseTransaction rt tx.serialize =
      .ok { version := tx.version, txIn := tx.input.map TxIn.toTxInput
            txOut := tx.output.map TxOut.toTxOutput, locktime := tx.lockTime
            hash := tx.txid rt, witness := false } :=
  parseTransaction_of_fields rt (parseFields_of_layout (layout_serialize hasInput few) bound)

end Transactions

end BtcRelay
