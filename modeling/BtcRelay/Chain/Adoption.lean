import BtcRelay.Chain.Lineage
import BtcRelay.Chain.Ring

/-!
# What the submission handlers do

Each submission handler is inverted once. A submission accepts a batch of headers and
either moves the main chain to its last block (`MovesTo`), after writing commitments for
the heights after some base, or leaves the chain alone and appends to a fork account.
-/

namespace BtcRelay

open Exec BigEndian CircularBuffer

theorem submitHeaders_eq_ok_iff {σ : Type} {rt : Runtime} {ctx : Context}
    {store : σ → UInt32 → Bytes32 → Exec σ}
    {event : Bytes32 → Bytes32 → CommittedBlockHeader → Event} {data : List BlockHeader}
    {base : CommittedBlockHeader} {height : UInt32} {account : σ} {last : Progress σ} :
    submitHeaders rt ctx store event data base height account = .ok last ↔
      ∃ children stored,
        Accepted rt ctx.unixTimestamp base (data.zip ctx.remainingAccounts) children ∧
        storeAll rt store account height children = .ok stored ∧
        last = Progress.advance rt event
          ⟨base, base.header.getBlockHash rt, height, emptyArray, account, []⟩ children stored :=
  foldlM_submitHeader_eq_ok_iff rfl

/-- The main state after the chain has moved to a tip, with commitments written for the
heights after a given one. -/
structure MovesTo (rt : Runtime) (main : MainState) (height : ℕ) (commitments : List Bytes32)
    (tip : CommittedBlockHeader) (next : MainState) : Prop where
  buffer : next.buffer = main.buffer.writeAll height commitments
  tipCommitHash : next.tipCommitHash = tip.getCommitHash rt
  tipBlockHash : next.tipBlockHash = tip.header.getBlockHash rt
  chainWork : next.chainWork = tip.chainWork
  lastDiffAdjustment : next.lastDiffAdjustment = tip.lastDiffAdjustment

section Main

variable {rt : Runtime} {ctx : Context} {main next : MainState} {data : List BlockHeader}
  {base : CommittedBlockHeader} {events : List Event}

/-- The loop over the main state, with the update of the tip after it. -/
theorem movesTo_of_submitHeaders {event : Bytes32 → Bytes32 → CommittedBlockHeader → Event}
    {height : UInt32} {last : Progress MainState}
    (required : requireHeaders ctx data = .ok ())
    (submitted : submitHeaders rt ctx storeMain event data base height main = .ok last) :
    ∃ children tip, Batch rt ctx data base children tip ∧
      MovesTo rt main height.toNat (children.map (CommittedBlockHeader.getCommitHash rt)) tip
        (last.account.updateTip last.lastCommitedHeader last.blockHeight last.blockCommitHash
          last.lastBlockHash) ∧
      last.blockHeight.toNat = height.toNat + children.length ∧
      last.lastCommitedHeader = tip ∧
      last.account.forkCounter = main.forkCounter ∧
      last.events = children.map (headerEvent rt event) := by
  rcases submitHeaders_eq_ok_iff.mp submitted with ⟨children, stored, accepted, storage, rfl⟩
  rcases batch_of_accepted required accepted with ⟨tip, batch⟩
  rcases storeAll_storeMain_spec storage with ⟨ring, buffer, heights⟩
  have commitments := batch.getLast?_commitments
  refine ⟨children, tip, batch, ?_, ?_, ?_, ?_, ?_⟩
  · simp only [Progress.advance, MainState.updateTip, batch.getLastD_eq,
      List.getLastD_eq_getLast?, commitments, Option.getD_some]
    exact ⟨buffer, rfl, rfl, rfl, rfl⟩
  · exact heights
  · exact batch.getLastD_eq base
  · simp only [Progress.advance]
    rw [ring]
    rfl
  · simp only [Progress.advance, List.nil_append]

theorem submitBlockHeaders_spec
    (submitted : submitBlockHeaders rt ctx main data base = .ok (next, events)) :
    ∃ children tip, Batch rt ctx data base children tip ∧
      main.getCommitment main.blockHeight = .ok (base.getCommitHash rt) ∧
      MovesTo rt main main.blockHeight.toNat
        (children.map (CommittedBlockHeader.getCommitHash rt)) tip next ∧
      next.blockHeight.toNat = main.blockHeight.toNat + children.length ∧
      next.forkCounter = main.forkCounter ∧
      events = children.map (headerEvent rt .storeHeader) := by
  simp only [submitBlockHeaders, bind_eq_ok_iff, require_eq_ok_iff, Except.ok.injEq,
    Prod.mk.injEq] at submitted
  rcases submitted with ⟨_, required, _, committed, _, rfl, last, run, rfl, rfl⟩
  rcases movesTo_of_submitHeaders required run with
    ⟨children, tip, batch, moves, height, _, counter, events⟩
  exact ⟨children, tip, batch, committed, moves, height, counter, events⟩

theorem submitShortForkHeaders_spec
    (submitted : submitShortForkHeaders rt ctx main data base = .ok (next, events)) :
    ∃ children tip, Batch rt ctx data base children tip ∧
      main.getCommitment base.blockheight = .ok (base.getCommitHash rt) ∧
      MovesTo rt main base.blockheight.toNat
        (children.map (CommittedBlockHeader.getCommitHash rt)) tip next ∧
      next.blockHeight.toNat = base.blockheight.toNat + children.length ∧
      value main.chainWork < value tip.chainWork ∧
      next.forkCounter.toNat = main.forkCounter.toNat + 1 ∧
      events = children.map (headerEvent rt (.storeFork main.forkCounter)) := by
  simp only [submitShortForkHeaders, bind_eq_ok_iff, require_eq_ok_iff, Except.ok.injEq,
    Prod.mk.injEq, add64_eq_ok_iff, gtArr_iff] at submitted
  rcases submitted with
    ⟨_, required, _, committed, _, rfl, last, run, _, heavier, counter, counted, rfl, rfl⟩
  rcases movesTo_of_submitHeaders required run with
    ⟨children, tip, batch, moves, height, rfl, _, events⟩
  rcases moves with ⟨buffer, commitHash, blockHash, work, adjustment⟩
  refine ⟨children, last.lastCommitedHeader, batch, committed,
    ⟨buffer, commitHash, blockHash, work, adjustment⟩, height, heavier, counted, events⟩

end Main

namespace ForkState

def stored (forkState : ForkState) : List Bytes32 :=
  forkState.blockCommitments.toList.take forkState.length.toNat

theorem storeBlockCommitment_spec {forkState next : ForkState} {commitment : Bytes32}
    (stores : forkState.storeBlockCommitment commitment = .ok next) :
    next = { forkState with blockCommitments := next.blockCommitments, length := next.length } ∧
      next.stored = forkState.stored ++ [commitment] ∧
      next.length.toNat = forkState.length.toNat + 1 ∧ next.length.toNat ≤ 250 := by
  have one : UInt32.toNat 1 = 1 := rfl
  simp only [storeBlockCommitment, bind_eq_ok_iff, add32_eq_ok_iff, Except.ok.injEq, one] at stores
  rcases stores with ⟨slots, updated, length, lengthEq, rfl⟩
  simp only [update] at updated
  split at updated
  · rename_i inRange
    cases updated
    have room : forkState.length.toNat < forkState.blockCommitments.toList.length := by
      rw [List.Vector.toList_length]
      exact inRange
    refine ⟨rfl, ?_, lengthEq, by simp only [lengthEq]; exact inRange⟩
    simp only [stored, lengthEq, List.Vector.toList_set]
    rw [List.take_add_one, List.take_set_of_le (le_refl _), List.getElem?_set_self room,
      Option.toList_some]
  · exact absurd updated abort_ne_ok

theorem storeAll_spec {rt : Runtime} {forkState next : ForkState} {height nextHeight : UInt32}
    {children : List CommittedBlockHeader}
    (stores : storeAll rt (fun forkState _ => forkState.storeBlockCommitment) forkState height
      children = .ok (next, nextHeight)) :
    next = { forkState with blockCommitments := next.blockCommitments, length := next.length } ∧
      next.stored = forkState.stored ++ children.map (CommittedBlockHeader.getCommitHash rt) ∧
      next.length.toNat = forkState.length.toNat + children.length ∧
      (children ≠ [] → next.length.toNat ≤ 250) ∧
      nextHeight.toNat = height.toNat + children.length := by
  induction children generalizing forkState height with
  | nil =>
      simp only [storeAll, Except.ok.injEq, Prod.mk.injEq] at stores
      rcases stores with ⟨rfl, rfl⟩
      exact ⟨rfl, by simp, rfl, by simp, rfl⟩
  | cons child rest ih =>
      have one : UInt32.toNat 1 = 1 := rfl
      simp only [storeAll, bind_eq_ok_iff, add32_eq_ok_iff, one] at stores
      rcases stores with ⟨middleHeight, heightEq, middle, storesFirst, storesRest⟩
      rcases storeBlockCommitment_spec storesFirst with
        ⟨fieldsFirst, storedFirst, lengthFirst, boundFirst⟩
      rcases ih storesRest with ⟨fieldsRest, storedRest, lengthRest, boundRest, heightRest⟩
      refine ⟨?_, ?_, ?_, ?_, ?_⟩
      · rw [fieldsRest, fieldsFirst]
      · rw [storedRest, storedFirst, List.map_cons, List.append_assoc, List.singleton_append]
      · rw [lengthRest, lengthFirst, List.length_cons]
        omega
      · intro _
        cases rest with
        | nil =>
            rw [List.length_nil, Nat.add_zero] at lengthRest
            omega
        | cons second rest => exact boundRest (List.cons_ne_nil _ _)
      · rw [heightRest, heightEq, List.length_cons]
        omega

end ForkState

theorem copyCommitments_spec {main next : MainState} {forkState : ForkState}
    (copied : copyCommitments main forkState = .ok next) :
    next = main.withRing next ∧
      next.buffer = main.buffer.writeAll forkState.startHeight.toNat forkState.stored := by
  have prefixes : ∀ count, count ≤ forkState.length.toNat → ∀ {next : MainState},
      (List.range count).foldlM (fun mainState i => do
        let first ← add32 forkState.startHeight 1
        let height ← add32 first (UInt32.ofNat i)
        let commitment ← index forkState.blockCommitments i
        storeMain mainState height commitment) main = .ok next →
      next = main.withRing next ∧ next.buffer = main.buffer.writeAll forkState.startHeight.toNat
        (forkState.blockCommitments.toList.take count) := by
    intro count
    induction count with
    | zero =>
        intro _ next run
        simp only [List.range_zero, List.foldlM_nil, pure_eq_ok, Except.ok.injEq] at run
        subst run
        exact ⟨rfl, rfl⟩
    | succ count ih =>
        intro bound next run
        have one : UInt32.toNat 1 = 1 := rfl
        have lengthBound := forkState.length.toNat_lt
        have small : (UInt32.ofNat count).toNat = count :=
          UInt32.toNat_ofNat_of_lt' (by simp only [UInt32.size]; omega)
        simp only [List.range_succ, List.foldlM_append, List.foldlM_cons, List.foldlM_nil,
          bind_eq_ok_iff, pure_eq_ok, Except.ok.injEq, exists_eq_right, add32_eq_ok_iff,
          one, small] at run
        rcases run with ⟨middle, run, first, firstEq, height, heightEq, commitment, found, store⟩
        rcases ih (by omega) run with ⟨ring, buffer⟩
        rcases storeMain_spec store with ⟨ringLast, bufferLast⟩
        refine ⟨?_, ?_⟩
        · rw [ring, withRing_withRing] at ringLast
          exact ringLast
        · simp only [index] at found
          split at found
          · rename_i inRange
            have commitmentEq := Except.ok.inj found
            have length : forkState.blockCommitments.toList.length = 250 :=
              List.Vector.toList_length _
            have room : count < forkState.blockCommitments.toList.length := by
              rw [length]
              exact inRange
            have heights : height.toNat = forkState.startHeight.toNat +
                (forkState.blockCommitments.toList.take count).length + 1 := by
              rw [List.length_take]
              omega
            rw [List.take_add_one, List.getElem?_eq_getElem room, Option.toList_some,
              Buffer.writeAll_append_singleton, ← buffer, ← heights, bufferLast, ← commitmentEq,
              List.Vector.get_eq_get_toList]
            rfl
          · exact absurd found abort_ne_ok
  exact prefixes forkState.length.toNat (le_refl _) copied

end BtcRelay
