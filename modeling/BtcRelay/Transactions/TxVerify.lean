import BtcRelay.Network.Deployment
import BtcRelay.Transactions.Readings

/-!
# Checking an instruction that verified a transaction

The utility of `txverify.rs`, with which another program checks that the instruction before
its own has verified a transaction. It compares the data of the instruction with the
discriminator, the transaction id and the number of confirmations of an instruction that
the program no longer has, at an address that is no longer the program's. How the program
finds the handler of an instruction is a parameter: the handler's discriminator must come
first in the data.
-/

namespace BtcRelay

open Exec Readers

/-- The address of the program that the utility knows. -/
def btcRelayId : Pubkey :=
  BigEndian.ofNat 32 0x6b2bae5ff6aae173195b00752f2f83ddee3b0a571813049471c74815d32f922b

def IX_PREFIX : List UInt8 := [0x9d, 0x7e, 0xc1, 0x86, 0x31, 0x33, 0x07, 0x58]

/-- Compares the data from a position on with some bytes, up to the first difference. -/
def compareAt (data : List UInt8) : ℕ → List UInt8 → Exec Bool
  | _, [] => .ok true
  | position, byte :: rest => do
      let found ← unwrap data[position]?
      if found ≠ byte then .ok false else compareAt data (position + 1) rest

/-- The code for the data of an instruction; `0` when it has verified the transaction. -/
def checkTxData (data : List UInt8) (reversedTxId : Bytes32) (confirmations : UInt32) :
    Exec UInt8 := do
  let prefixed ← compareAt data 0 IX_PREFIX
  if ¬prefixed then .ok 1
  else do
    let named ← compareAt data 8 reversedTxId.toList
    if ¬named then .ok 2
    else do
      let bytes ← sliceOf data 40 44
      if confirmations ≠ UInt32.ofNat (fromLeBytes bytes) then .ok 3 else .ok 0

def verifyTxIx (program : Pubkey) (data : List UInt8) (reversedTxId : Bytes32)
    (confirmations : UInt32) : Exec UInt8 :=
  if program ≠ btcRelayId then .ok 10 else checkTxData data reversedTxId confirmations

/-- The instructions of the program, by the functions that handle them. -/
inductive Method where
  | initializeRelay
  | submitBlockHeaders
  | submitShortForkHeaders
  | submitForkHeaders
  | closeForkAccount
  | verifySmallTx
  | blockHeight
  | deposit
  | initBigTxVerify
  | storeTxBytes
  | finalizeTxProcessing
deriving DecidableEq

namespace Method

def all : List Method :=
  [.initializeRelay, .submitBlockHeaders, .submitShortForkHeaders, .submitForkHeaders,
    .closeForkAccount, .verifySmallTx, .blockHeight, .deposit, .initBigTxVerify, .storeTxBytes,
    .finalizeTxProcessing]

theorem mem_all (method : Method) : method ∈ all := by
  cases method <;> decide

def name : Method → String
  | .initializeRelay => "initialize"
  | .submitBlockHeaders => "submit_block_headers"
  | .submitShortForkHeaders => "submit_short_fork_headers"
  | .submitForkHeaders => "submit_fork_headers"
  | .closeForkAccount => "close_fork_account"
  | .verifySmallTx => "verify_small_tx"
  | .blockHeight => "block_height"
  | .deposit => "deposit"
  | .initBigTxVerify => "init_big_tx_verify"
  | .storeTxBytes => "store_tx_bytes"
  | .finalizeTxProcessing => "finalize_tx_processing"

/-- What the data of a method's instructions begin with. -/
def discriminator (method : Method) : List UInt8 :=
  let text := "global:" ++ method.name
  (Sha256.hash (text.toList.map fun char => UInt8.ofNat char.toNat)).toList.take 8

end Method

section

variable {data bytes first second : List UInt8} {position : ℕ} {program : Pubkey}
  {reversedTxId : Bytes32} {confirmations : UInt32}

theorem append_prefix_iff :
    first ++ second <+: data ↔ first <+: data ∧ second <+: data.drop first.length := by
  constructor
  · rintro ⟨rest, rfl⟩
    rw [List.append_assoc, List.drop_left]
    exact ⟨List.prefix_append _ _, List.prefix_append _ _⟩
  · rintro ⟨⟨rest, rfl⟩, continued⟩
    rw [List.drop_left] at continued
    exact (List.prefix_append_right_inj first).mpr continued

theorem compareAt_eq_true_iff :
    compareAt data position bytes = .ok true ↔ bytes <+: data.drop position := by
  induction bytes generalizing position with
  | nil => exact iff_of_true rfl List.nil_prefix
  | cons byte rest ih =>
      simp only [compareAt, Exec.bind_eq_ok_iff, unwrap_eq_ok_iff]
      constructor
      · rintro ⟨found, here, compared⟩
        split at compared
        · cases compared
        · rename_i same
          rcases List.getElem?_eq_some_iff.mp here with ⟨inRange, is⟩
          rw [List.drop_eq_getElem_cons inRange, is, not_not.mp same]
          exact (List.prefix_cons_inj byte).mpr (ih.mp compared)
      · rintro ⟨tail, whole⟩
        have here : data[position]? = some byte := by
          rw [← List.head?_drop, ← whole]
          rfl
        refine ⟨byte, here, ?_⟩
        rw [if_neg (not_not.mpr rfl), ih, ← List.tail_drop, ← whole]
        exact List.prefix_append rest tail

/-- The four bytes at a position are those of a number. -/
theorem exists_sliceOf_iff : (∃ bytes, sliceOf data position (position + 4) = .ok bytes ∧
      confirmations = UInt32.ofNat (fromLeBytes bytes)) ↔
    leBytes confirmations <+: data.drop position := by
  constructor
  · rintro ⟨bytes, cut, same⟩
    rcases sliceOf_eq_ok_iff.mp cut with ⟨ordered, within, rfl⟩
    rw [same, leBytes_fromLeBytes (length_slice_add within)]
    exact List.take_prefix _ _
  · rintro ⟨rest, whole⟩
    have length := congrArg List.length whole
    simp only [List.length_append, leBytes_length, List.length_drop] at length
    have cut : slice data position (position + 4) = leBytes confirmations := by
      rw [slice, ← whole, Nat.add_sub_cancel_left]
      exact List.take_left' (leBytes_length confirmations)
    refine ⟨slice data position (position + 4), ?_, ?_⟩
    · exact sliceOf_eq_ok_iff.mpr ⟨by omega, by omega, rfl⟩
    · rw [cut, fromLeBytes_leBytes, UInt32.ofNat_toNat]

/-- The utility accepts the data that begins with its discriminator, the transaction id and the
number of confirmations. -/
theorem checkTxData_eq_zero_iff : checkTxData data reversedTxId confirmations = .ok 0 ↔
    IX_PREFIX ++ (reversedTxId.toList ++ leBytes confirmations) <+: data := by
  have size := reversedTxId.toList_length
  have at40 := @exists_sliceOf_iff data 40 confirmations
  rw [append_prefix_iff, append_prefix_iff, List.drop_drop, size]
  have start := @compareAt_eq_true_iff data IX_PREFIX 0
  rw [List.drop_zero] at start
  simp only [IX_PREFIX, List.length_cons, List.length_nil] at start ⊢
  rw [← start, ← compareAt_eq_true_iff, ← at40]
  simp only [checkTxData, Exec.bind_eq_ok_iff, IX_PREFIX]
  constructor
  · rintro ⟨prefixed, matched, accepted⟩
    cases prefixed with
    | false => cases accepted
    | true =>
        simp only [not_true, if_false, Exec.bind_eq_ok_iff] at accepted
        rcases accepted with ⟨named, matched', accepted⟩
        cases named with
        | false => cases accepted
        | true =>
            simp only [not_true, if_false, Exec.bind_eq_ok_iff] at accepted
            rcases accepted with ⟨bytes, cut, accepted⟩
            refine ⟨matched, matched', bytes, cut, ?_⟩
            by_contra different
            rw [if_pos different] at accepted
            cases accepted
  · rintro ⟨matched, matched', bytes, cut, same⟩
    refine ⟨true, matched, ?_⟩
    simp only [not_true, if_false, Exec.bind_eq_ok_iff]
    refine ⟨true, matched', ?_⟩
    simp only [not_true, if_false, Exec.bind_eq_ok_iff]
    refine ⟨bytes, cut, ?_⟩
    rw [if_neg (not_not.mpr same)]

theorem verifyTxIx_eq_zero_iff : verifyTxIx program data reversedTxId confirmations = .ok 0 ↔
    program = btcRelayId ∧
      IX_PREFIX ++ (reversedTxId.toList ++ leBytes confirmations) <+: data := by
  rw [← checkTxData_eq_zero_iff, verifyTxIx]
  by_cases known : program = btcRelayId
  · rw [if_neg (not_not.mpr known)]
    exact (and_iff_right known).symm
  · rw [if_pos known]
    apply iff_of_false
    · intro wrong
      cases wrong
    · exact fun both => known both.1

/-- No method of the program has the discriminator that the utility looks for. -/
theorem Method.discriminator_ne (method : Method) :
    method.discriminator.length = IX_PREFIX.length ∧ method.discriminator ≠ IX_PREFIX := by
  have checked : ∀ method ∈ all, method.discriminator.length = IX_PREFIX.length ∧
      method.discriminator ≠ IX_PREFIX := of_decide_eq_true (by decide +kernel)
  exact checked method method.mem_all

/-- What the utility accepts, and that it is never an instruction that the program handles. -/
theorem verifyTxIx_accepts {dispatch : List UInt8 → Option Method}
    (dispatches : ∀ data method, dispatch data = some method → method.discriminator <+: data)
    (program : Pubkey) (data : List UInt8) (reversedTxId : Bytes32) (confirmations : UInt32) :
    (verifyTxIx program data reversedTxId confirmations = .ok 0 ↔ program = btcRelayId ∧
      IX_PREFIX ++ (reversedTxId.toList ++ leBytes confirmations) <+: data) ∧
    (verifyTxIx program data reversedTxId confirmations = .ok 0 →
      program ≠ programId ∧ dispatch data = none) := by
  refine ⟨verifyTxIx_eq_zero_iff, ?_⟩
  intro accepted
  rcases verifyTxIx_eq_zero_iff.mp accepted with ⟨rfl, begins⟩
  have different : btcRelayId ≠ programId := by decide +kernel
  refine ⟨different, ?_⟩
  rw [Option.eq_none_iff_forall_ne_some]
  intro method found
  rcases method.discriminator_ne with ⟨lengths, unlike⟩
  -- both are the first eight bytes of the data
  have tagged := (List.prefix_append _ _).trans begins
  have same := List.prefix_of_prefix_length_le (dispatches data method found) tagged
    (le_of_eq lengths)
  exact unlike (same.eq_of_length lengths)

end

/-- Finds the method whose discriminator the data begins with. -/
def Method.find (data : List UInt8) : Option Method :=
  all.find? fun method => method.discriminator.isPrefixOf data

theorem find_dispatches (data : List UInt8) (method : Method)
    (found : Method.find data = some method) : method.discriminator <+: data := by
  rw [Method.find] at found
  have begins := List.find?_some found
  exact List.isPrefixOf_iff_prefix.mp begins

/-- The utility accepts such data for the transaction id zero. -/
theorem verifyTxIx_accepts_find :
    verifyTxIx btcRelayId (IX_PREFIX ++ List.replicate 36 0) emptyArray 0 = .ok 0 ∧
      btcRelayId ≠ programId ∧ Method.find (IX_PREFIX ++ List.replicate 36 0) = none := by
  rcases verifyTxIx_accepts find_dispatches btcRelayId (IX_PREFIX ++ List.replicate 36 0)
    emptyArray 0 with ⟨accepts, unhandled⟩
  have accepted := accepts.mpr ⟨rfl, by decide +kernel⟩
  exact ⟨accepted, unhandled accepted⟩

end BtcRelay
