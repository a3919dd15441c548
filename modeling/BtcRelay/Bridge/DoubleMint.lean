import BtcRelay.Bridge.Payouts
import BtcRelay.Network.Replay
import Mathlib.Algebra.BigOperators.Group.Finset.Basic

/-!
# Double minting

Nothing records which deposits have been paid out. The lamports that a run pays to a
receiver exceed what the distinct outputs deposit as soon as one transaction is processed
twice, and equal it as long as none is.
-/

namespace BtcRelay

def payoutsTo (receiver : Pubkey) (steps : List RelayStep) : List RelayStep :=
  steps.filter fun step => step.request.instruction.receiver? = some receiver

/-- The lamports that a run moves from the deposit account to a receiver. -/
def totalPaid (receiver : Pubkey) (steps : List RelayStep) : ℕ :=
  ((payoutsTo receiver steps).map takenFromDeposit).sum

def processedFor (rt : Runtime) (receiver : Pubkey) (steps : List RelayStep) : List Transaction :=
  (payoutsTo receiver steps).filterMap (processedTx rt)

/-- The distinct outputs among some transactions that deposit for a receiver. -/
def distinctDeposits (rt : Runtime) (receiver : Pubkey) (txs : List Transaction) :
    Finset Deposit :=
  (txs.flatMap (deposits rt receiver)).toFinset

def distinctSum (rt : Runtime) (receiver : Pubkey) (txs : List Transaction) : ℕ :=
  ∑ deposit ∈ distinctDeposits rt receiver txs, deposit.2.2

/-- A txid stands for the outputs of one transaction only. -/
def TxidsIdentify (rt : Runtime) (txs : List Transaction) : Prop :=
  ∀ first ∈ txs, ∀ second ∈ txs, rt.computeTxid first = rt.computeTxid second →
    first.output = second.output

instance (rt : Runtime) (txs : List Transaction) : Decidable (TxidsIdentify rt txs) :=
  inferInstanceAs (Decidable (∀ first ∈ txs, ∀ second ∈ txs,
    rt.computeTxid first = rt.computeTxid second → first.output = second.output))

section

variable {rt : Runtime} {receiver : Pubkey} {tx : Transaction} {txs : List Transaction}

theorem nodup_deposits (rt : Runtime) (receiver : Pubkey) (tx : Transaction) :
    (deposits rt receiver tx).Nodup := by
  apply List.Nodup.of_map fun deposit => deposit.2.1
  simp only [deposits, List.map_map]
  have indices : (tx.output.zipIdx.map Prod.snd).Nodup := by
    rw [List.zipIdx_map_snd]
    exact List.nodup_range'
  exact indices.sublist (List.filter_sublist.map Prod.snd)

theorem fst_of_mem_deposits {deposit : Deposit} (member : deposit ∈ deposits rt receiver tx) :
    deposit.1 = rt.computeTxid tx := by
  rcases List.mem_map.mp member with ⟨_, _, rfl⟩
  rfl

theorem sum_deposits (rt : Runtime) (receiver : Pubkey) (tx : Transaction) :
    ∑ deposit ∈ (deposits rt receiver tx).toFinset, deposit.2.2 = depositSum rt receiver tx :=
  List.sum_toFinset _ (nodup_deposits rt receiver tx)

theorem distinctSum_cons_of_mem (identify : TxidsIdentify rt (tx :: txs))
    (repeated : rt.computeTxid tx ∈ txs.map rt.computeTxid) :
    distinctSum rt receiver (tx :: txs) = distinctSum rt receiver txs := by
  rcases List.mem_map.mp repeated with ⟨other, other_mem, same⟩
  have outputs := identify other (List.mem_cons_of_mem tx other_mem) tx List.mem_cons_self same
  have again : deposits rt receiver tx = deposits rt receiver other := by
    simp only [deposits, outputs, same]
  have included : (deposits rt receiver tx).toFinset ⊆
      (txs.flatMap (deposits rt receiver)).toFinset := by
    intro deposit member
    rw [again, List.mem_toFinset] at member
    exact List.mem_toFinset.mpr (List.mem_flatMap.mpr ⟨other, other_mem, member⟩)
  simp only [distinctSum, distinctDeposits, List.flatMap_cons, List.toFinset_append]
  rw [Finset.union_eq_right.mpr included]

theorem distinctSum_cons_of_not_mem (new : rt.computeTxid tx ∉ txs.map rt.computeTxid) :
    distinctSum rt receiver (tx :: txs) =
      depositSum rt receiver tx + distinctSum rt receiver txs := by
  have disjoint : Disjoint (deposits rt receiver tx).toFinset
      (txs.flatMap (deposits rt receiver)).toFinset := by
    rw [Finset.disjoint_left]
    intro deposit here there
    rw [List.mem_toFinset] at here there
    rcases List.mem_flatMap.mp there with ⟨other, other_mem, member⟩
    apply new
    rw [← fst_of_mem_deposits here, fst_of_mem_deposits member]
    exact List.mem_map_of_mem other_mem
  simp only [distinctSum, distinctDeposits, List.flatMap_cons, List.toFinset_append]
  rw [Finset.sum_union disjoint, sum_deposits]

theorem distinctSum_le (identify : TxidsIdentify rt txs) :
    distinctSum rt receiver txs ≤ (txs.map (depositSum rt receiver)).sum := by
  induction txs with
  | nil => exact le_refl 0
  | cons tx rest ih =>
      have bound := ih fun first firstMem second secondMem =>
        identify first (List.mem_cons_of_mem tx firstMem) second (List.mem_cons_of_mem tx secondMem)
      rw [List.map_cons, List.sum_cons]
      by_cases repeated : rt.computeTxid tx ∈ rest.map rt.computeTxid
      · rw [distinctSum_cons_of_mem identify repeated]
        omega
      · rw [distinctSum_cons_of_not_mem repeated]
        omega

/-- The distinct outputs cover what the transactions deposit exactly when none is repeated. -/
theorem sum_le_distinctSum_iff (identify : TxidsIdentify rt txs)
    (positive : ∀ tx ∈ txs, 0 < depositSum rt receiver tx) :
    (txs.map (depositSum rt receiver)).sum ≤ distinctSum rt receiver txs ↔
      (txs.map rt.computeTxid).Nodup := by
  induction txs with
  | nil => exact iff_of_true (le_refl 0) List.nodup_nil
  | cons tx rest ih =>
      have identifyRest : TxidsIdentify rt rest := fun first firstMem second secondMem =>
        identify first (List.mem_cons_of_mem tx firstMem) second (List.mem_cons_of_mem tx secondMem)
      have bound : distinctSum rt receiver rest ≤ _ := distinctSum_le identifyRest
      have gain := positive tx List.mem_cons_self
      have equivalence := ih identifyRest
        fun tx member => positive tx (List.mem_cons_of_mem _ member)
      rw [List.map_cons, List.sum_cons, List.map_cons, List.nodup_cons]
      by_cases repeated : rt.computeTxid tx ∈ rest.map rt.computeTxid
      · rw [distinctSum_cons_of_mem identify repeated]
        apply iff_of_false
        · omega
        · intro nodup
          exact nodup.1 repeated
      · rw [distinctSum_cons_of_not_mem repeated, Nat.add_le_add_iff_left, equivalence]
        exact (and_iff_right repeated).symm

end

section

variable {rt : Runtime} {receiver : Pubkey} {steps : List RelayStep} {ledger : Ledger}

theorem payouts_of_run (run : RelayRun rt steps ledger) (receiver : Pubkey) :
    totalPaid receiver steps =
        10 * ((processedFor rt receiver steps).map (depositSum rt receiver)).sum ∧
      ∀ tx ∈ processedFor rt receiver steps, 0 < depositSum rt receiver tx := by
  induction run with
  | start fresh =>
      refine ⟨rfl, ?_⟩
      intro tx member
      cases member
  | @step steps before after request output run success ih =>
      rcases ih with ⟨total, positive⟩
      by_cases pays : request.instruction.receiver? = some receiver
      · rcases @payout_spec rt ⟨before, request, after, output⟩ receiver success pays with
          ⟨tx, processed, gain, taken⟩
        simp only [totalPaid, processedFor, payoutsTo] at total positive ⊢
        simp only [pays, List.filter_cons_of_pos, decide_true, List.map_cons, List.sum_cons,
          List.filterMap_cons, processed, taken, total, List.forall_mem_cons]
        exact ⟨(Nat.mul_add 10 _ _).symm, gain, positive⟩
      · simp only [totalPaid, processedFor, payoutsTo] at total positive ⊢
        simp only [pays, decide_false, Bool.false_eq_true, not_false_eq_true,
          List.filter_cons_of_neg]
        exact ⟨total, positive⟩

/-- A run pays a receiver no more than the distinct outputs deposit for it exactly when no
transaction is paid out twice. -/
theorem totalPaid_le_iff_nodup (run : RelayRun rt steps ledger)
    (identify : TxidsIdentify rt (processedFor rt receiver steps)) :
    totalPaid receiver steps ≤
        10 * distinctSum rt receiver (processedFor rt receiver steps) ↔
      ((processedFor rt receiver steps).map rt.computeTxid).Nodup := by
  rcases payouts_of_run run receiver with ⟨total, positive⟩
  rw [total, Nat.mul_le_mul_left_iff (by omega)]
  exact sum_le_distinctSum_iff identify positive

end

section

open Sample

theorem totalPaid_le_iff_nodup_paidOnce :
    totalPaid depositor (replay mainnet paidOnce).1 ≤
        10 * distinctSum mainnet depositor
          (processedFor mainnet depositor (replay mainnet paidOnce).1) ↔
      ((processedFor mainnet depositor (replay mainnet paidOnce).1).map
        mainnet.computeTxid).Nodup :=
  totalPaid_le_iff_nodup (run_replay mainnet paidOnce)
    (of_decide_eq_true (by decide +kernel))

/-- A deposit that is paid as a large and as a small transaction is credited twice. -/
theorem distinctSum_lt_totalPaid_paidTwice :
    RelayRun mainnet (replay mainnet paidTwice).1 (replay mainnet paidTwice).2 ∧
      TxidsIdentify mainnet (processedFor mainnet depositor (replay mainnet paidTwice).1) ∧
      10 * distinctSum mainnet depositor
          (processedFor mainnet depositor (replay mainnet paidTwice).1) <
        totalPaid depositor (replay mainnet paidTwice).1 := by
  refine ⟨run_replay mainnet paidTwice, ?_, ?_⟩
  · apply of_decide_eq_true
    decide +kernel
  · apply of_decide_eq_true
    decide +kernel

end

end BtcRelay
