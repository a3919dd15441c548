import Mathlib.Data.Vector.Basic

/-!
# Execution of an instruction

An instruction either completes or fails, and a failed instruction is rolled back
by the runtime, so a handler is modelled as a computation in `Exec`: it returns the
new account contents or the reason for the failure. The build profile keeps the
overflow checks on, so every `u32` and `u64` operation of the program that can leave
its range is a checked operation here and aborts the instruction.
-/

namespace BtcRelay

/-- A Rust `[u8; 32]`: hashes, addresses and 256-bit numbers. -/
abbrev Bytes32 := List.Vector UInt8 32

abbrev Pubkey := Bytes32

/-- The program's own error codes. -/
inductive RelayErrorCode where
  | prevBlockCommitment
  | prevBlock
  | errDiffTarget
  | errPowToolow
  | errTimestampToolow
  | errTimestampTooHigh
  | invalidHeaderTopic
  | noHeaders
  | forkTooShort
  | errInit
  | blockConfirmations
  | merkleRoot
  | invalidBlockheight
  | invalidForkId
  | invalidRemainingAccounts
  | noDepositOutputs
deriving DecidableEq, Repr

/-- Account checks made by Anchor around a handler. -/
inductive AccountErrorCode where
  | alreadyInUse
  | notInitialized
  | discriminatorAlreadySet
  | discriminatorMismatch
  | creationFailed
  | seedsMismatch
  | didNotSerialize
  | notSystemOwned
deriving DecidableEq, Repr

/-- Why an instruction fails. -/
inductive Failure where
  | relay (code : RelayErrorCode)
  | account (code : AccountErrorCode)
  | abort
deriving DecidableEq, Repr

/-- A computation of the program that may fail. -/
abbrev Exec := Except Failure

namespace Exec

variable {α β : Type}

/-- A panic: an arithmetic overflow, an index out of range or a failed `unwrap`. -/
def abort : Exec α := .error .abort

def require (condition : Prop) [Decidable condition] (code : RelayErrorCode) : Exec Unit :=
  if condition then .ok () else .error (.relay code)

/-- A value that must fit in an unsigned integer of the given width. -/
def fitsIn (bits number : ℕ) : Exec ℕ :=
  if number < 2 ^ bits then .ok number else abort

def index {n : ℕ} (array : List.Vector α n) (position : ℕ) : Exec α :=
  if inRange : position < n then .ok (array.get ⟨position, inRange⟩) else abort

def update {n : ℕ} (array : List.Vector α n) (position : ℕ) (element : α) :
    Exec (List.Vector α n) :=
  if inRange : position < n then .ok (array.set ⟨position, inRange⟩ element) else abort

def subUsize (left right : ℕ) : Exec ℕ :=
  if right ≤ left then .ok (left - right) else abort

def unwrap : Option α → Exec α
  | some value => .ok value
  | none => abort

def add32 (left right : UInt32) : Exec UInt32 :=
  if left.toNat + right.toNat < 2 ^ 32 then .ok (left + right) else abort

def sub32 (left right : UInt32) : Exec UInt32 :=
  if right ≤ left then .ok (left - right) else abort

def add64 (left right : UInt64) : Exec UInt64 :=
  if left.toNat + right.toNat < 2 ^ 64 then .ok (left + right) else abort

def sub64 (left right : UInt64) : Exec UInt64 :=
  if right ≤ left then .ok (left - right) else abort

def mul64 (left right : UInt64) : Exec UInt64 :=
  if left.toNat * right.toNat < 2 ^ 64 then .ok (left * right) else abort

/-- A sequence completes when its first part does and the rest does from there. -/
@[simp]
theorem bind_eq_ok_iff {first : Exec α} {rest : α → Exec β} {result : β} :
    (first >>= rest) = .ok result ↔ ∃ value, first = .ok value ∧ rest value = .ok result := by
  cases first with
  | error failure => simp [bind, Except.bind]
  | ok value => simp [bind, Except.bind]

@[simp]
theorem ok_bind (value : α) (rest : α → Exec β) :
    ((Except.ok value : Exec α) >>= rest) = rest value := rfl

@[simp]
theorem error_bind (failure : Failure) (rest : α → Exec β) :
    ((Except.error failure : Exec α) >>= rest) = .error failure := rfl

@[simp]
theorem pure_eq_ok (value : α) : (pure value : Exec α) = .ok value := rfl

@[simp]
theorem require_eq_ok_iff {condition : Prop} [Decidable condition] {code : RelayErrorCode}
    {result : Unit} : require condition code = .ok result ↔ condition := by
  unfold require
  split <;> simp_all

theorem require_of_true {condition : Prop} [Decidable condition] (code : RelayErrorCode)
    (holds : condition) : require condition code = .ok () := by
  simp [holds]

@[simp]
theorem abort_ne_ok {value : α} : (abort : Exec α) ≠ .ok value := by
  simp [abort]

@[simp]
theorem fitsIn_eq_ok_iff {bits number result : ℕ} :
    fitsIn bits number = .ok result ↔ number < 2 ^ bits ∧ result = number := by
  unfold fitsIn
  split
  · simp_all [eq_comm]
  · simp_all

theorem fitsIn_of_lt {bits number : ℕ} (bound : number < 2 ^ bits) :
    fitsIn bits number = .ok number := by
  simp [bound]

@[simp]
theorem subUsize_eq_ok_iff {left right result : ℕ} :
    subUsize left right = .ok result ↔ result + right = left := by
  unfold subUsize
  split
  · rw [Except.ok.injEq]
    omega
  · simp
    omega

theorem index_of_lt {n : ℕ} (array : List.Vector α n) {position : ℕ} (inRange : position < n) :
    index array position = .ok (array.get ⟨position, inRange⟩) := by
  simp [index, inRange]

theorem update_of_lt {n : ℕ} (array : List.Vector α n) {position : ℕ} (inRange : position < n)
    (element : α) :
    update array position element = .ok (array.set ⟨position, inRange⟩ element) := by
  simp [update, inRange]

@[simp]
theorem unwrap_eq_ok_iff {option : Option α} {value : α} :
    unwrap option = .ok value ↔ option = some value := by
  cases option <;> simp [unwrap]

@[simp]
theorem add32_eq_ok_iff {left right result : UInt32} :
    add32 left right = .ok result ↔ result.toNat = left.toNat + right.toNat := by
  unfold add32
  split
  · rename_i fits
    rw [Except.ok.injEq, ← UInt32.toNat_inj, UInt32.toNat_add, Nat.mod_eq_of_lt fits, eq_comm]
  · rename_i overflows
    have bound := result.toNat_lt
    simp
    omega

@[simp]
theorem sub32_eq_ok_iff {left right result : UInt32} :
    sub32 left right = .ok result ↔ result.toNat + right.toNat = left.toNat := by
  unfold sub32
  split
  · rename_i ordered
    have difference := UInt32.toNat_sub_of_le left right ordered
    have bound := UInt32.le_iff_toNat_le.mp ordered
    rw [Except.ok.injEq, ← UInt32.toNat_inj, difference]
    omega
  · rename_i underflows
    rw [UInt32.le_iff_toNat_le] at underflows
    simp
    omega

@[simp]
theorem add64_eq_ok_iff {left right result : UInt64} :
    add64 left right = .ok result ↔ result.toNat = left.toNat + right.toNat := by
  unfold add64
  split
  · rename_i fits
    rw [Except.ok.injEq, ← UInt64.toNat_inj, UInt64.toNat_add, Nat.mod_eq_of_lt fits, eq_comm]
  · rename_i overflows
    have bound := result.toNat_lt
    simp
    omega

@[simp]
theorem sub64_eq_ok_iff {left right result : UInt64} :
    sub64 left right = .ok result ↔ result.toNat + right.toNat = left.toNat := by
  unfold sub64
  split
  · rename_i ordered
    have difference := UInt64.toNat_sub_of_le left right ordered
    have bound := UInt64.le_iff_toNat_le.mp ordered
    rw [Except.ok.injEq, ← UInt64.toNat_inj, difference]
    omega
  · rename_i underflows
    rw [UInt64.le_iff_toNat_le] at underflows
    simp
    omega

@[simp]
theorem mul64_eq_ok_iff {left right result : UInt64} :
    mul64 left right = .ok result ↔ result.toNat = left.toNat * right.toNat := by
  unfold mul64
  split
  · rename_i fits
    rw [Except.ok.injEq, ← UInt64.toNat_inj, UInt64.toNat_mul, Nat.mod_eq_of_lt fits, eq_comm]
  · rename_i overflows
    have bound := result.toNat_lt
    simp
    omega

/-- A computation fails only in allowed ways. -/
def Throws (allowed : Failure → Prop) (run : Exec α) : Prop :=
  ∀ failure, run = .error failure → allowed failure

namespace Throws

variable {allowed : Failure → Prop}

theorem ok (value : α) : Throws allowed (.ok value) := by
  intro failure failed
  cases failed

theorem bind {first : Exec α} {rest : α → Exec β} (head : Throws allowed first)
    (tail : ∀ value, first = .ok value → Throws allowed (rest value)) :
    Throws allowed (first >>= rest) := by
  cases first with
  | error failure =>
      rintro _ ⟨⟩
      exact head failure rfl
  | ok value => exact tail value rfl

theorem abort (aborts : allowed .abort) : Throws allowed (abort : Exec α) := by
  rintro _ ⟨⟩
  exact aborts

theorem require (condition : Prop) [Decidable condition] {code : RelayErrorCode}
    (refuses : allowed (.relay code)) : Throws allowed (require condition code) := by
  rw [Exec.require]
  split
  · exact ok ()
  · rintro _ ⟨⟩
    exact refuses

theorem foldlM {step : β → α → Exec β} (each : ∀ state element, Throws allowed (step state element))
    (elements : List α) (state : β) : Throws allowed (elements.foldlM step state) := by
  induction elements generalizing state with
  | nil => exact ok state
  | cons element rest ih => exact bind (each state element) fun next _ => ih next

section Checked

variable (aborts : allowed .abort)

include aborts

theorem fitsIn (bits number : ℕ) : Throws allowed (fitsIn bits number) := by
  rw [Exec.fitsIn]
  split
  · exact ok number
  · exact abort aborts

theorem index {n : ℕ} (array : List.Vector α n) (position : ℕ) :
    Throws allowed (index array position) := by
  rw [Exec.index]
  split
  · exact ok _
  · exact abort aborts

theorem update {n : ℕ} (array : List.Vector α n) (position : ℕ) (element : α) :
    Throws allowed (update array position element) := by
  rw [Exec.update]
  split
  · exact ok _
  · exact abort aborts

theorem subUsize (left right : ℕ) : Throws allowed (subUsize left right) := by
  rw [Exec.subUsize]
  split
  · exact ok _
  · exact abort aborts

theorem add32 (left right : UInt32) : Throws allowed (add32 left right) := by
  rw [Exec.add32]
  split
  · exact ok _
  · exact abort aborts

theorem sub32 (left right : UInt32) : Throws allowed (sub32 left right) := by
  rw [Exec.sub32]
  split
  · exact ok _
  · exact abort aborts

theorem add64 (left right : UInt64) : Throws allowed (add64 left right) := by
  rw [Exec.add64]
  split
  · exact ok _
  · exact abort aborts

end Checked

end Throws

end Exec

end BtcRelay
