import Mathlib.Data.List.Basic

/-!
# Spending an output of a witness script

Scripts of a few operations: pushes of data, and the operations that drop, hash and compare
elements of the stack and check a signature. How a script is run and whether a witness spends
an output is left to the validation of the network. What follows rests on the laws of these
operations and of the outputs that commit to the hash of a script: the spender shows the
script together with the elements to start it with, and it must leave a single true element.
-/

namespace Script

abbrev Item := List UInt8

/-- The functions that a script can call. A signature is checked for one spending transaction and
the script it belongs to; one that is not well formed ends the script. -/
structure Functions where
  sha256 : Item → Item
  hash160 : Item → Item
  checkSig : List UInt8 → Item → Item → Option Bool

/-- How the network validates the scripts of a spending transaction. -/
structure Validation where
  /-- The stack that is left of another by some bytes, which are part of a script. -/
  run : (script bytes : List UInt8) → List Item → Option (List Item)
  spends : (scriptPubkey : List UInt8) → (witness : List Item) → Prop

inductive Element where
  | push (data : Item)
  | drop
  | hash160
  | equalVerify
  | checkSig
deriving DecidableEq

/-- The longest data that is pushed by an opcode of its own. -/
def maxPush : ℕ := 75

/-- The longest element that a spender can start the script with. -/
def maxElement : ℕ := 520

/-- The longest script that a spender can show. -/
def maxScript : ℕ := 10000

/-- The most elements that a stack can hold. -/
def maxStack : ℕ := 1000

namespace Element

def encode : Element → List UInt8
  | .push data => UInt8.ofNat data.length :: data
  | .drop => [0x75]
  | .hash160 => [0xa9]
  | .equalVerify => [0x88]
  | .checkSig => [0xac]

def Encodable : Element → Prop
  | .push data => data.length ≤ maxPush
  | _ => True

/-- What an element of a script does to the stack, whose top is the head of the list. -/
def execute (functions : Functions) (script : List UInt8) :
    Element → List Item → Option (List Item)
  | .push data, stack => some (data :: stack)
  | .drop, _ :: stack => some stack
  | .hash160, item :: stack => some (functions.hash160 item :: stack)
  | .equalVerify, first :: second :: stack => if first = second then some stack else none
  | .checkSig, pubkey :: signature :: stack =>
      (functions.checkSig script signature pubkey).map fun valid =>
        (if valid then [1] else []) :: stack
  | _, _ => none

end Element

/-- An element is true unless it is a zero, of any length and sign. -/
def isTrue (item : Item) : Bool :=
  item.dropLast.any (· ≠ 0) || item.getLast?.any fun byte => byte ≠ 0 && byte ≠ 0x80

/-- A witness shows a script with a given hash, and runs it to a single true element. -/
def Unlocks (functions : Functions)
    (run : (script bytes : List UInt8) → List Item → Option (List Item))
    (program : Item) (witness : List Item) : Prop :=
  ∃ items script, witness = items ++ [script] ∧ script.length ≤ maxScript ∧
    functions.sha256 script = program ∧ (∀ item ∈ items, item.length ≤ maxElement) ∧
    ∃ item, run script script items.reverse = some [item] ∧ isTrue item = true

/-- The laws of the elements and of the outputs with a public key script of version zero. The
limits of the network on the length of a script, on the number of its operations and on the depth
of the stack can only make a script fail, and not one of a hundred elements whose stack stays
within its limit. -/
structure Validation.Obeys (validation : Validation) (functions : Functions) : Prop where
  nil : ∀ script stack, validation.run script [] stack = some stack
  execute : ∀ {script element bytes stack final}, Element.Encodable element →
    validation.run script (element.encode ++ bytes) stack = some final →
    ∃ next, element.execute functions script stack = some next ∧
      validation.run script bytes next = some final
  run : ∀ {script element} {rest : List Element} {stack next final}, Element.Encodable element →
    (∀ other ∈ rest, other.Encodable) → rest.length < 100 → next.length ≤ maxStack →
    element.execute functions script stack = some next →
    validation.run script (rest.flatMap Element.encode) next = some final →
    validation.run script (element.encode ++ rest.flatMap Element.encode) stack = some final
  spends_iff : ∀ {program witness}, program.length = 32 →
    (validation.spends (0x00 :: 0x20 :: program) witness ↔
      Unlocks functions validation.run program witness)

/-- What the elements of a script do to the stack, one after the other. -/
def execute (functions : Functions) (script : List UInt8) (elements : List Element)
    (stack : List Item) : Option (List Item) :=
  elements.foldlM (fun stack element => element.execute functions script stack) stack

section

variable {functions : Functions} {validation : Validation} {script : List UInt8}
  {elements rest : List Element} {stack next final : List Item} {element : Element}
  {data item hash preimage : Item} {witness : List Item}

theorem execute_cons :
    execute functions script (element :: rest) stack =
      (element.execute functions script stack).bind (execute functions script rest) := rfl

/-- An element adds at most one to the depth of the stack. -/
theorem Element.length_execute_le
    (executed : element.execute functions script stack = some next) :
    next.length ≤ stack.length + 1 := by
  cases element with
  | push data =>
      cases executed
      exact Nat.le_refl _
  | drop =>
      match stack with
      | [] => cases executed
      | _ :: below =>
          cases executed
          simp only [List.length_cons]
          omega
  | hash160 =>
      match stack with
      | [] => cases executed
      | _ :: below =>
          cases executed
          simp only [List.length_cons]
          omega
  | equalVerify =>
      match stack with
      | [] => cases executed
      | [_] => cases executed
      | first :: second :: below =>
          simp only [Element.execute] at executed
          split at executed
          · cases executed
            simp only [List.length_cons]
            omega
          · cases executed
  | checkSig =>
      match stack with
      | [] => cases executed
      | [_] => cases executed
      | pubkey :: signature :: below =>
          simp only [Element.execute, Option.map_eq_some_iff] at executed
          rcases executed with ⟨valid, _, rfl⟩
          simp only [List.length_cons]
          omega

namespace Validation.Obeys

/-- A script that runs does what its elements do. -/
theorem execute_of_run (obeys : validation.Obeys functions)
    (encodable : ∀ element ∈ elements, element.Encodable)
    (runs : validation.run script (elements.flatMap Element.encode) stack = some final) :
    Script.execute functions script elements stack = some final := by
  induction elements generalizing stack with
  | nil =>
      rw [List.flatMap_nil, obeys.nil] at runs
      exact runs
  | cons element rest ih =>
      rw [List.flatMap_cons] at runs
      rcases obeys.execute (encodable element List.mem_cons_self) runs with
        ⟨next, executed, later⟩
      rw [execute_cons, executed, Option.bind_some]
      exact ih (fun other member => encodable other (List.mem_cons_of_mem _ member)) later

/-- A script runs if its elements can be executed within the limits. -/
theorem run_of_execute (obeys : validation.Obeys functions)
    (encodable : ∀ element ∈ elements, element.Encodable) (few : elements.length ≤ 100)
    (shallow : stack.length + elements.length ≤ maxStack)
    (executed : Script.execute functions script elements stack = some final) :
    validation.run script (elements.flatMap Element.encode) stack = some final := by
  induction elements generalizing stack with
  | nil =>
      rw [List.flatMap_nil, obeys.nil]
      exact executed
  | cons element rest ih =>
      rw [execute_cons, Option.bind_eq_some_iff] at executed
      rcases executed with ⟨next, first, executed⟩
      rw [List.length_cons] at few shallow
      have depth := Element.length_execute_le first
      have others : ∀ other ∈ rest, other.Encodable :=
        fun other member => encodable other (List.mem_cons_of_mem _ member)
      rw [List.flatMap_cons]
      exact obeys.run (encodable element List.mem_cons_self) others (by omega) (by omega) first
        (ih others (by omega) (by omega) executed)

end Validation.Obeys

/-- Hashing an element and comparing it with a given hash takes a preimage off the stack. -/
theorem execute_hashLock :
    execute functions script (.hash160 :: .push hash :: .equalVerify :: rest) stack = some final ↔
      ∃ preimage below, stack = preimage :: below ∧ functions.hash160 preimage = hash ∧
        execute functions script rest below = some final := by
  cases stack with
  | nil =>
      constructor
      · intro executed
        cases executed
      · rintro ⟨_, _, shape, _⟩
        cases shape
  | cons preimage below =>
      simp only [execute_cons, Element.execute, Option.bind_some, List.cons.injEq]
      by_cases same : hash = functions.hash160 preimage
      · rw [if_pos same, Option.bind_some]
        constructor
        · intro executed
          exact ⟨preimage, below, ⟨rfl, rfl⟩, same.symm, executed⟩
        · rintro ⟨_, _, ⟨rfl, rfl⟩, _, executed⟩
          exact executed
      · rw [if_neg same, Option.bind_none]
        constructor
        · intro executed
          cases executed
        · rintro ⟨_, _, ⟨rfl, rfl⟩, hashed, _⟩
          exact absurd hashed.symm same

theorem execute_checkSig :
    execute functions script [.checkSig] stack = some final ↔
      ∃ pubkey signature below valid, stack = pubkey :: signature :: below ∧
        functions.checkSig script signature pubkey = some valid ∧
        final = (if valid then [1] else []) :: below := by
  have single : execute functions script [.checkSig] stack =
      Element.checkSig.execute functions script stack := by
    rw [execute_cons]
    exact Option.bind_fun_some _
  rw [single]
  match stack with
  | [] => simp [Element.execute]
  | [pubkey] => simp [Element.execute]
  | pubkey :: signature :: below =>
      simp only [Element.execute, Option.map_eq_some_iff]
      constructor
      · rintro ⟨valid, checked, rfl⟩
        exact ⟨pubkey, signature, below, valid, rfl, checked, rfl⟩
      · rintro ⟨_, _, _, valid, ⟨rfl, rfl, rfl⟩, checked, rfl⟩
        exact ⟨valid, checked, rfl⟩

/-- A script that ignores some data, asks for the preimage of a hash and checks a signature. -/
def lockedSignature (data hash : Item) : List Element :=
  [.push data, .drop, .hash160, .push hash, .equalVerify, .checkSig]

theorem execute_lockedSignature_eq_single :
    execute functions script (lockedSignature data hash) stack = some [item] ∧
        isTrue item = true ↔
      ∃ preimage pubkey signature, stack = [preimage, pubkey, signature] ∧
        functions.hash160 preimage = hash ∧
        functions.checkSig script signature pubkey = some true ∧ item = [1] := by
  have dropped : execute functions script (lockedSignature data hash) stack =
      execute functions script (.hash160 :: .push hash :: .equalVerify :: [.checkSig]) stack := rfl
  simp only [dropped, execute_hashLock, execute_checkSig]
  constructor
  · rintro ⟨⟨preimage, _, rfl, hashed, pubkey, signature, below, valid, rfl, checked, final⟩,
      isTrue⟩
    rw [List.cons.injEq] at final
    rcases final with ⟨result, empty⟩
    refine ⟨preimage, pubkey, signature, by rw [← empty], hashed, ?_⟩
    cases valid with
    | true =>
        rw [if_pos rfl] at result
        exact ⟨checked, result⟩
    | false =>
        rw [if_neg Bool.false_ne_true] at result
        rw [result] at isTrue
        cases isTrue
  · rintro ⟨preimage, pubkey, signature, rfl, hashed, checked, rfl⟩
    exact ⟨⟨preimage, _, rfl, hashed, pubkey, signature, [], true, rfl, checked, rfl⟩, by decide⟩

theorem encodable_lockedSignature (dataShort : data.length ≤ maxPush)
    (hashShort : hash.length ≤ maxPush) :
    ∀ element ∈ lockedSignature data hash, element.Encodable := by
  intro element member
  simp only [lockedSignature, List.mem_cons, List.not_mem_nil, or_false] at member
  rcases member with rfl | rfl | rfl | rfl | rfl | rfl
  · exact dataShort
  · trivial
  · trivial
  · exact hashShort
  · trivial
  · trivial

/-- The witnesses that spend an output of a locked signature, if its script has no second
preimage among the scripts shown. The key that signs need not be the preimage. -/
theorem unlocks_lockedSignature_iff (obeys : validation.Obeys functions)
    (scriptEq : script = (lockedSignature data hash).flatMap Element.encode)
    (dataShort : data.length ≤ maxPush) (hashShort : hash.length ≤ maxPush)
    (binding : ∀ shown, witness.getLast? = some shown →
      functions.sha256 shown = functions.sha256 script → shown = script) :
    Unlocks functions validation.run (functions.sha256 script) witness ↔
      ∃ signature pubkey preimage, witness = [signature, pubkey, preimage, script] ∧
        (∀ item ∈ [signature, pubkey, preimage], item.length ≤ maxElement) ∧
        functions.hash160 preimage = hash ∧
        functions.checkSig script signature pubkey = some true := by
  have encodable := encodable_lockedSignature dataShort hashShort
  have size : script.length ≤ maxScript := by
    simp only [scriptEq, lockedSignature, List.flatMap_cons, List.flatMap_nil, Element.encode,
      List.length_append, List.length_cons, List.length_nil, maxPush, maxScript]
      at dataShort hashShort ⊢
    omega
  constructor
  · rintro ⟨items, shown, rfl, _, hashed, short, item, runs, isTrue⟩
    cases binding shown (by simp) hashed
    have bytes : validation.run script ((lockedSignature data hash).flatMap Element.encode)
        items.reverse = some [item] := by
      rw [← scriptEq]
      exact runs
    have executed := obeys.execute_of_run encodable bytes
    rcases execute_lockedSignature_eq_single.mp ⟨executed, isTrue⟩ with
      ⟨preimage, pubkey, signature, stack, owner, signed, _⟩
    have order : items = [signature, pubkey, preimage] := by
      rw [← List.reverse_reverse items, stack]
      rfl
    subst order
    exact ⟨signature, pubkey, preimage, rfl, short, owner, signed⟩
  · rintro ⟨signature, pubkey, preimage, rfl, short, owner, signed⟩
    refine ⟨[signature, pubkey, preimage], script, rfl, size, rfl, short, [1], ?_, by decide⟩
    have executed := (execute_lockedSignature_eq_single.mpr
      ⟨preimage, pubkey, signature, rfl, owner, signed, rfl⟩ :
      execute functions script (lockedSignature data hash) [preimage, pubkey, signature] =
        some [[1]] ∧ _).1
    have runs := obeys.run_of_execute encodable (by simp [lockedSignature])
      (by simp [lockedSignature, maxStack]) executed
    rw [← scriptEq] at runs
    exact runs

end

/-- The operation of an opcode. -/
def Element.ofOpcode (opcode : UInt8) : Option Element :=
  if opcode = 0x75 then some .drop
  else if opcode = 0xa9 then some .hash160
  else if opcode = 0x88 then some .equalVerify
  else if opcode = 0xac then some .checkSig
  else none

/-- The elements of a script, if it has no other opcodes. -/
def parse : List UInt8 → Option (List Element)
  | [] => some []
  | opcode :: rest =>
      if opcode.toNat ≤ maxPush then
        if opcode.toNat ≤ rest.length then
          (parse (rest.drop opcode.toNat)).map (.push (rest.take opcode.toNat) :: ·)
        else none
      else
        (Element.ofOpcode opcode).bind fun element => (parse rest).map (element :: ·)
termination_by bytes => bytes.length
decreasing_by
  all_goals simp only [List.length_drop, List.length_cons]
  all_goals omega

/-- A validation that runs the scripts of these elements alone. -/
def evaluator (functions : Functions) : Validation :=
  let run script bytes stack :=
    (parse bytes).bind fun elements => execute functions script elements stack
  { run
    spends := fun scriptPubkey witness => ∃ program, scriptPubkey = 0x00 :: 0x20 :: program ∧
      Unlocks functions run program witness }

section

variable {functions : Functions} {element : Element} {data : Item}

theorem parse_push (short : data.length ≤ maxPush) (bytes : List UInt8) :
    parse (UInt8.ofNat data.length :: (data ++ bytes)) =
      (parse bytes).map (.push data :: ·) := by
  have length : (UInt8.ofNat data.length).toNat = data.length := by
    rw [UInt8.toNat_ofNat']
    apply Nat.mod_eq_of_lt
    simp only [maxPush] at short
    omega
  rw [parse, length, if_pos short, if_pos (by simp), List.drop_left, List.take_left]

theorem parse_opcode {opcode : UInt8} (long : maxPush < opcode.toNat)
    (known : Element.ofOpcode opcode = some element) (bytes : List UInt8) :
    parse (opcode :: bytes) = (parse bytes).map (element :: ·) := by
  rw [parse, if_neg (Nat.not_le.mpr long), known, Option.bind_some]

theorem parse_encode (encodable : element.Encodable) (bytes : List UInt8) :
    parse (element.encode ++ bytes) = (parse bytes).map (element :: ·) := by
  cases element with
  | push data => exact parse_push encodable bytes
  | drop => exact parse_opcode (by decide) rfl bytes
  | hash160 => exact parse_opcode (by decide) rfl bytes
  | equalVerify => exact parse_opcode (by decide) rfl bytes
  | checkSig => exact parse_opcode (by decide) rfl bytes

theorem run_evaluator_encode (encodable : element.Encodable) (script bytes : List UInt8)
    (stack : List Item) :
    (evaluator functions).run script (element.encode ++ bytes) stack =
      (element.execute functions script stack).bind
        ((evaluator functions).run script bytes) := by
  simp only [evaluator, parse_encode encodable, Option.bind_map]
  cases parse bytes with
  | none => cases element.execute functions script stack <;> rfl
  | some elements => rfl

theorem obeys_evaluator (functions : Functions) : (evaluator functions).Obeys functions where
  nil script stack := by
    simp only [evaluator, parse, Option.bind_some]
    rfl
  execute encodable runs := by
    rw [run_evaluator_encode encodable, Option.bind_eq_some_iff] at runs
    exact runs
  run encodable _ _ _ executed runs := by
    rw [run_evaluator_encode encodable, executed, Option.bind_some]
    exact runs
  spends_iff _ := by
    simp only [evaluator, List.cons.injEq, true_and, exists_eq_left']

end

end Script
