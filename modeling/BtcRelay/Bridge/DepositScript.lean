import BtcRelay.Bridge.DoubleMint
import BtcRelay.Foundations.Script
import Mathlib.Algebra.BigOperators.Ring.Finset
import Mathlib.Algebra.Order.BigOperators.Group.Finset

/-!
# Deposit outputs

What the output script of a receiver's deposits means on Bitcoin. The script hashes the key
of the bridge without keeping a copy of it, so the signature is checked with another key,
which the spender is free to choose: an output can be spent by everybody who knows the
bridge's public key. How a witness is validated is a parameter, with the laws of the
operations that the script uses. On the program's side an output deposits for one receiver, so the
receivers together are paid no more than the outputs of the processed transactions hold.
-/

namespace BtcRelay

open Exec

/-- The witness script of a receiver's deposits, for the key of the bridge. -/
def depositScript (rt : Runtime) (receiver : Pubkey) : List UInt8 :=
  bridgeDepositScript receiver (rt.hash160 BITCOIN_DEPOSIT_PUBKEY)

/-- The functions that the scripts of a spending transaction call. -/
def scriptFunctions (rt : Runtime)
    (checkSig : List UInt8 → List UInt8 → List UInt8 → Option Bool) : Script.Functions where
  sha256 bytes := (rt.sha256 bytes).toList
  hash160 bytes := (rt.hash160 bytes).toList
  checkSig := checkSig

/-- The outputs of a transaction. -/
def outputsOf (rt : Runtime) (tx : Transaction) : List Deposit :=
  tx.output.zipIdx.map fun out => (rt.computeTxid tx, out.2, out.1.value.toNat)

/-- The value of the distinct outputs of some transactions. -/
def outputSum (rt : Runtime) (txs : List Transaction) : ℕ :=
  ∑ deposit ∈ (txs.flatMap (outputsOf rt)).toFinset, deposit.2.2

/-- The transactions that some steps process, for any receiver. -/
def processed (rt : Runtime) (steps : List RelayStep) : List Transaction :=
  steps.filterMap (processedTx rt)

section

variable {rt : Runtime} {receiver : Pubkey} {witness : List (List UInt8)}

theorem bridgeDepositScript_eq_flatMap (solanaPub : Pubkey)
    (bitcoinPubkeyHash : List.Vector UInt8 20) :
    bridgeDepositScript solanaPub bitcoinPubkeyHash =
      (Script.lockedSignature solanaPub.toList bitcoinPubkeyHash.toList).flatMap
        Script.Element.encode := by
  simp [bridgeDepositScript, Script.lockedSignature, Script.Element.encode]

theorem bridgeDepositScript_injective (bitcoinPubkeyHash : List.Vector UInt8 20) :
    Function.Injective fun solanaPub => bridgeDepositScript solanaPub bitcoinPubkeyHash := by
  intro first second same
  simp only [bridgeDepositScript, List.append_assoc, List.append_cancel_left_eq] at same
  apply List.Vector.toList_injective
  exact (List.append_inj same (by simp)).1

/-- The deposits of a receiver are spent exactly with a preimage of the hash of the bridge's
key, and a signature by any key at all. -/
theorem spends_expectedScriptPubkey_iff
    (checkSig : List UInt8 → List UInt8 → List UInt8 → Option Bool)
    {validation : Script.Validation} (obeys : validation.Obeys (scriptFunctions rt checkSig))
    (binding : ∀ shown, witness.getLast? = some shown →
      rt.sha256 shown = rt.sha256 (depositScript rt receiver) →
      shown = depositScript rt receiver) :
    validation.spends (expectedScriptPubkey rt receiver) witness ↔
      ∃ signature pubkey preimage,
        witness = [signature, pubkey, preimage, depositScript rt receiver] ∧
        (∀ item ∈ [signature, pubkey, preimage], item.length ≤ 520) ∧
        rt.hash160 preimage = rt.hash160 BITCOIN_DEPOSIT_PUBKEY ∧
        checkSig (depositScript rt receiver) signature pubkey = some true := by
  have locked : depositScript rt receiver = _ :=
    bridgeDepositScript_eq_flatMap receiver (rt.hash160 BITCOIN_DEPOSIT_PUBKEY)
  have program : expectedScriptPubkey rt receiver = 0x00 :: 0x20 ::
      (scriptFunctions rt checkSig).sha256 (depositScript rt receiver) := rfl
  rw [program, obeys.spends_iff (by simp [scriptFunctions]),
    Script.unlocks_lockedSignature_iff obeys locked]
  · simp only [Script.maxElement, scriptFunctions, List.Vector.toList_injective.eq_iff]
  · simp [Script.maxPush]
  · simp [Script.maxPush]
  · intro shown last same
    exact binding shown last (List.Vector.toList_injective same)

end

section

open Sample

/-- A signature check that accepts one key, which is not the bridge's. -/
def otherKey (_ _ pubkey : List UInt8) : Option Bool := some (pubkey = [2])

theorem spends_expectedScriptPubkey_otherKey :
    (Script.evaluator (scriptFunctions mainnet otherKey)).spends
      (expectedScriptPubkey mainnet depositor)
      [[0x30], [2], BITCOIN_DEPOSIT_PUBKEY, depositScript mainnet depositor] := by
  apply (spends_expectedScriptPubkey_iff otherKey (Script.obeys_evaluator _) ?_).mpr
  · refine ⟨[0x30], [2], BITCOIN_DEPOSIT_PUBKEY, rfl, ?_, rfl, rfl⟩
    simp [BITCOIN_DEPOSIT_PUBKEY]
  · intro shown last _
    exact (Option.some.inj last).symm

end

section

variable {rt : Runtime} {receiver first second : Pubkey} {tx : Transaction}
  {txs : List Transaction} {steps : List RelayStep} {ledger : Ledger} {deposit : Deposit}

theorem processedFor_subset (rt : Runtime) (receiver : Pubkey) (steps : List RelayStep) :
    processedFor rt receiver steps ⊆ processed rt steps := by
  intro tx member
  simp only [processedFor, payoutsTo, processed, List.mem_filterMap, List.mem_filter] at member ⊢
  rcases member with ⟨step, ⟨member, _⟩, decoded⟩
  exact ⟨step, member, decoded⟩

theorem TxidsIdentify.mono {others : List Transaction} (identify : TxidsIdentify rt txs)
    (subset : others ⊆ txs) : TxidsIdentify rt others :=
  fun first firstMem second secondMem =>
    identify first (subset firstMem) second (subset secondMem)

theorem exists_output_of_mem (member : deposit ∈ distinctDeposits rt receiver txs) :
    ∃ tx ∈ txs, ∃ out, tx.output[deposit.2.1]? = some out ∧
      deposit = (rt.computeTxid tx, deposit.2.1, out.value.toNat) ∧
      out.scriptPubkey = expectedScriptPubkey rt receiver := by
  simp only [distinctDeposits, List.mem_toFinset, List.mem_flatMap, deposits, List.mem_map,
    List.mem_filter, decide_eq_true_eq] at member
  rcases member with ⟨tx, txMem, ⟨out, index⟩, ⟨here, script⟩, rfl⟩
  exact ⟨tx, txMem, out, List.mem_zipIdx_iff_getElem?.mp here, rfl, script⟩

/-- The script of an output names its receiver. -/
theorem eq_of_expectedScriptPubkey_eq
    (separate : rt.sha256 (depositScript rt first) = rt.sha256 (depositScript rt second) →
      depositScript rt first = depositScript rt second)
    (same : expectedScriptPubkey rt first = expectedScriptPubkey rt second) : first = second := by
  simp only [expectedScriptPubkey, p2wshScriptPubkey, List.append_cancel_left_eq] at same
  exact bridgeDepositScript_injective _ (separate (List.Vector.toList_injective same))

/-- No output deposits for two receivers. -/
theorem disjoint_distinctDeposits {others : List Transaction}
    (identify : TxidsIdentify rt txs) (subset : others ⊆ txs) {these : List Transaction}
    (subset' : these ⊆ txs)
    (separate : rt.sha256 (depositScript rt first) = rt.sha256 (depositScript rt second) →
      depositScript rt first = depositScript rt second)
    (different : first ≠ second) :
    Disjoint (distinctDeposits rt first others) (distinctDeposits rt second these) := by
  rw [Finset.disjoint_left]
  intro deposit here there
  rcases exists_output_of_mem here with ⟨tx, txMem, out, found, shape, script⟩
  rcases exists_output_of_mem there with ⟨tx', txMem', out', found', shape', script'⟩
  have txid : rt.computeTxid tx = rt.computeTxid tx' :=
    congrArg Prod.fst (shape.symm.trans shape')
  have outputs := identify tx (subset txMem) tx' (subset' txMem') txid
  rw [outputs, found'] at found
  cases found
  exact different (eq_of_expectedScriptPubkey_eq separate (script.symm.trans script'))

theorem distinctDeposits_subset {others : List Transaction} (subset : others ⊆ txs) :
    distinctDeposits rt receiver others ⊆ (txs.flatMap (outputsOf rt)).toFinset := by
  intro deposit member
  rcases exists_output_of_mem member with ⟨tx, txMem, out, found, shape, _⟩
  rw [List.mem_toFinset, List.mem_flatMap]
  refine ⟨tx, subset txMem, ?_⟩
  rw [shape]
  exact List.mem_map.mpr ⟨(out, deposit.2.1), List.mem_zipIdx_iff_getElem?.mpr found, rfl⟩

/-- If no transaction is processed twice for the same receiver, then all receivers together
are paid at most what the distinct outputs of the processed transactions hold. -/
theorem sum_totalPaid_le_of_run (run : RelayRun rt steps ledger) (receivers : Finset Pubkey)
    (identify : TxidsIdentify rt (processed rt steps))
    (once : ∀ receiver ∈ receivers,
      ((processedFor rt receiver steps).map rt.computeTxid).Nodup)
    (separate : ∀ first ∈ receivers, ∀ second ∈ receivers,
      rt.sha256 (depositScript rt first) = rt.sha256 (depositScript rt second) →
        depositScript rt first = depositScript rt second) :
    ∑ receiver ∈ receivers, totalPaid receiver steps ≤
      10 * outputSum rt (processed rt steps) := by
  have each : ∀ receiver ∈ receivers, totalPaid receiver steps ≤
      10 * distinctSum rt receiver (processedFor rt receiver steps) := by
    intro receiver member
    rcases payouts_of_run run receiver with ⟨total, positive⟩
    rw [total]
    apply Nat.mul_le_mul_left
    apply (sum_le_distinctSum_iff ?_ positive).mpr (once receiver member)
    exact identify.mono (processedFor_subset rt receiver steps)
  have disjoint : (receivers : Set Pubkey).PairwiseDisjoint fun receiver =>
      distinctDeposits rt receiver (processedFor rt receiver steps) := by
    intro first firstMem second secondMem different
    exact disjoint_distinctDeposits identify (processedFor_subset rt first steps)
      (processedFor_subset rt second steps) (separate first firstMem second secondMem) different
  calc ∑ receiver ∈ receivers, totalPaid receiver steps
      ≤ ∑ receiver ∈ receivers, 10 * distinctSum rt receiver (processedFor rt receiver steps) :=
        Finset.sum_le_sum each
    _ = 10 * ∑ receiver ∈ receivers, ∑ deposit ∈
          distinctDeposits rt receiver (processedFor rt receiver steps), deposit.2.2 := by
        rw [Finset.mul_sum]
        rfl
    _ = 10 * ∑ deposit ∈ receivers.biUnion fun receiver =>
          distinctDeposits rt receiver (processedFor rt receiver steps), deposit.2.2 := by
        rw [Finset.sum_biUnion disjoint]
    _ ≤ 10 * outputSum rt (processed rt steps) := by
        apply Nat.mul_le_mul_left
        apply Finset.sum_le_sum_of_subset
        apply Finset.biUnion_subset.mpr
        intro receiver _
        exact distinctDeposits_subset (processedFor_subset rt receiver steps)

end

section

open Sample

theorem sum_totalPaid_le_paidOnce :
    ∑ receiver ∈ {depositor, programId}, totalPaid receiver (replay mainnet paidOnce).1 ≤
      10 * outputSum mainnet (processed mainnet (replay mainnet paidOnce).1) := by
  apply sum_totalPaid_le_of_run (run_replay mainnet paidOnce)
  · exact of_decide_eq_true (by decide +kernel)
  · simp only [Finset.mem_insert, Finset.mem_singleton, forall_eq_or_imp, forall_eq]
    decide +kernel
  · simp only [Finset.mem_insert, Finset.mem_singleton, forall_eq_or_imp, forall_eq]
    decide +kernel

end

end BtcRelay
