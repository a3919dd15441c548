import BtcRelay.Network.Replay

/-!
# Progress

A relay whose tip can be read back is extended by every header that passes the checks on
top of it, and a fork account with room left by every header that passes the checks on top
of its tip. A list of such headers gives a run that submits them one by one.
-/

namespace BtcRelay

open Exec CircularBuffer History

/-- A header that passes the checks on top of a committed one, with the account that indexes it. -/
structure Submittable (rt : Runtime) (unixTimestamp : ℤ)
    (parent child : CommittedBlockHeader) : Prop where
  link : parent.header.getBlockHash rt = child.header.reversedPrevBlockhash
  checks : HeaderChecks rt parent (headerTopic rt (child.header.getBlockHash rt)) unixTimestamp
    child

/-- The relay can be extended from its tip. -/
structure Extendable (rt : Runtime) (main : MainState) (tip : CommittedBlockHeader) : Prop where
  isTip : IsTip rt main tip
  committed : main.getCommitment main.blockHeight = .ok (tip.getCommitHash rt)
  inside : main.blockHeight.toNat < main.startHeight.toNat + 250
  kept : main.startHeight.toNat < main.blockHeight.toNat + 250
  high : 250 ≤ main.blockHeight.toNat

section

variable {rt : Runtime} {ctx : Context} {main : MainState} {parent tip child : CommittedBlockHeader}

theorem getPosition_le (main : MainState) (blockHeight : UInt32) :
    ∃ position ≤ 250, main.getPosition blockHeight = .ok position := by
  refine ⟨_, ?_, getPosition_eq main blockHeight⟩
  simp only [Buffer.slotOf]
  split
  · omega
  · split
    · omega
    · split <;> omega

/-- Storing fails only when the count of stored blocks overflows. -/
theorem exists_storeMain (blockHeight : UInt32) (commitment : Bytes32)
    (room : main.totalBlocks.toNat + 1 < 2 ^ 32) :
    ∃ next, storeMain main blockHeight commitment = .ok next ∧
      next.totalBlocks.toNat ≤ main.totalBlocks.toNat + 1 := by
  have one : UInt32.toNat 1 = 1 := rfl
  rcases getPosition_le main blockHeight with ⟨position, bound, found⟩
  simp only [storeMain, MainState.storeBlockCommitment, found, ok_bind]
  by_cases outside : position = PRUNING_FACTOR
  · refine ⟨main, ?_, Nat.le_succ _⟩
    rw [if_pos outside, ok_bind]
  · have inRange : position < PRUNING_FACTOR := lt_of_le_of_ne bound outside
    have added : add32 main.totalBlocks 1 = .ok (main.totalBlocks + 1) := if_pos room
    have total : (main.totalBlocks + 1).toNat = main.totalBlocks.toNat + 1 :=
      add32_eq_ok_iff.mp added
    simp only [if_neg outside, update_of_lt _ inRange, added, ok_bind]
    exact ⟨_, rfl, le_of_eq total⟩

theorem submitHeaders_of_submittable {σ : Type} {store : σ → UInt32 → Bytes32 → Exec σ}
    {event : Bytes32 → Bytes32 → CommittedBlockHeader → Event} {account next : σ}
    {height : UInt32} (submittable : Submittable rt ctx.unixTimestamp parent child)
    (accounts : ctx.remainingAccounts = [headerTopic rt (child.header.getBlockHash rt)])
    (counted : height.toNat = parent.blockheight.toNat)
    (stored : store account child.blockheight (child.getCommitHash rt) = .ok next) :
    submitHeaders rt ctx store event [child.header] parent height account =
      .ok { lastCommitedHeader := child
            lastBlockHash := child.header.getBlockHash rt
            blockHeight := child.blockheight
            blockCommitHash := child.getCommitHash rt
            account := next
            events := [headerEvent rt event child] } := by
  have added : add32 height 1 = .ok child.blockheight := by
    rw [add32_eq_ok_iff, counted]
    exact submittable.checks.height
  apply submitHeaders_eq_ok_iff.mpr
  refine ⟨[child], (next, child.blockheight), ?_, ?_, rfl⟩
  · rw [accounts]
    exact .cons submittable.checks submittable.link .nil
  · simp only [storeAll, added, ok_bind, stored]

theorem requireHeaders_singleton {header : BlockHeader} {topic : Pubkey}
    (accounts : ctx.remainingAccounts = [topic]) : requireHeaders ctx [header] = .ok () := by
  simp [requireHeaders, accounts]

/-- A header that passes the checks is accepted on top of the tip, and the relay can be extended
again. -/
theorem exists_submitBlockHeaders (extendable : Extendable rt main tip)
    (submittable : Submittable rt ctx.unixTimestamp tip child)
    (accounts : ctx.remainingAccounts = [headerTopic rt (child.header.getBlockHash rt)])
    (room : main.totalBlocks.toNat + 1 < 2 ^ 32) :
    ∃ next, submitBlockHeaders rt ctx main [child.header] tip =
        .ok (next, [headerEvent rt .storeHeader child]) ∧
      Extendable rt next child ∧ next.totalBlocks.toNat ≤ main.totalBlocks.toNat + 1 := by
  have heights := congrArg UInt32.toNat extendable.isTip.blockHeight
  have height := submittable.checks.height
  have inside := extendable.inside
  have kept := extendable.kept
  have high := extendable.high
  rcases exists_storeMain child.blockheight (child.getCommitHash rt) room with
    ⟨ring, stored, total⟩
  have write := (storeMain_spec stored).2
  have start : ring.buffer.start = if main.startHeight.toNat + 250 ≤ child.blockheight.toNat
      then child.blockheight.toNat else main.startHeight.toNat := by
    rw [write]
    exact Buffer.start_write
  have insideNext : child.blockheight.toNat < ring.buffer.start + 250 := by
    rw [start]
    split <;> omega
  have keptNext : ring.buffer.start < child.blockheight.toNat + 250 := by
    rw [start]
    split <;> omega
  have read : ring.buffer.read child.blockheight.toNat = some (child.getCommitHash rt) := by
    rw [write]
    apply Buffer.read_write_self
    simp only [MainState.buffer, PRUNING_FACTOR]
    omega
  refine ⟨ring.updateTip child child.blockheight (child.getCommitHash rt)
    (child.header.getBlockHash rt), ?_, ?_, total⟩
  · simp only [submitBlockHeaders, requireHeaders_singleton accounts, extendable.committed,
      require_of_true, ok_bind, submitHeaders_of_submittable submittable accounts heights stored]
  · refine ⟨⟨rfl, rfl, rfl, rfl, rfl⟩, ?_, insideNext, keptNext, ?_⟩
    · apply getCommitment_of_read insideNext
      · simp only [MainState.updateTip]
        omega
      · exact le_refl _
      · simp only [MainState.updateTip]
        omega
      · exact read
    · simp only [MainState.updateTip]
      omega

/-- The copy of a fork fails only when a count overflows. -/
theorem exists_copyCommitments {forkState : ForkState} (length : forkState.length.toNat ≤ 250)
    (heights : forkState.startHeight.toNat + forkState.length.toNat < 2 ^ 32)
    (room : main.totalBlocks.toNat + forkState.length.toNat < 2 ^ 32) :
    ∃ next, copyCommitments main forkState = .ok next := by
  have one : UInt32.toNat 1 = 1 := rfl
  have prefixes : ∀ count ≤ forkState.length.toNat, ∃ next,
      (List.range count).foldlM (fun mainState i => do
        let first ← add32 forkState.startHeight 1
        let height ← add32 first (UInt32.ofNat i)
        let commitment ← index forkState.blockCommitments i
        storeMain mainState height commitment) main = .ok next ∧
      next.totalBlocks.toNat ≤ main.totalBlocks.toNat + count := by
    intro count
    induction count with
    | zero =>
        intro _
        exact ⟨main, rfl, le_refl _⟩
    | succ count ih =>
        intro bound
        rcases ih (by omega) with ⟨middle, run, total⟩
        have small : (UInt32.ofNat count).toNat = count :=
          UInt32.toNat_ofNat_of_lt' (by simp only [UInt32.size]; omega)
        have first : add32 forkState.startHeight 1 = .ok (forkState.startHeight + 1) :=
          if_pos (by omega)
        have firstEq := add32_eq_ok_iff.mp first
        have height : add32 (forkState.startHeight + 1) (UInt32.ofNat count) =
            .ok (forkState.startHeight + 1 + UInt32.ofNat count) := if_pos (by omega)
        have inRange : count < PRUNING_FACTOR := by
          simp only [PRUNING_FACTOR]
          omega
        rcases exists_storeMain (forkState.startHeight + 1 + UInt32.ofNat count)
          (forkState.blockCommitments.get ⟨count, inRange⟩)
          (show middle.totalBlocks.toNat + 1 < 2 ^ 32 by omega) with ⟨next, stored, more⟩
        refine ⟨next, ?_, by omega⟩
        rw [List.range_succ, List.foldlM_append, run, ok_bind]
        simp only [List.foldlM_cons, List.foldlM_nil, first, height, index_of_lt _ inRange, stored,
          ok_bind, pure_eq_ok]
  rcases prefixes _ (le_refl _) with ⟨next, run, _⟩
  exact ⟨next, run⟩

theorem exists_submitForkHeaders {forkState : ForkState} (forkId : UInt64)
    (submittable : Submittable rt ctx.unixTimestamp parent child)
    (accounts : ctx.remainingAccounts = [headerTopic rt (child.header.getBlockHash rt)])
    (initialized : forkState.initialized ≠ 0)
    (isTip : forkState.tipCommitHash = parent.getCommitHash rt)
    (length : forkState.length.toNat < 250)
    (heights : forkState.startHeight.toNat + forkState.length.toNat + 1 < 2 ^ 32)
    (room : main.totalBlocks.toNat + forkState.length.toNat + 1 < 2 ^ 32) :
    ∃ next account events,
      submitForkHeaders rt ctx main (some forkState) [child.header] parent forkId false =
        .ok (next, account, events) ∧ events.filterMap Event.header? = [child] := by
  have one : UInt32.toNat 1 = 1 := rfl
  have inRange : forkState.length.toNat < PRUNING_FACTOR := length
  have added : add32 forkState.length 1 = .ok (forkState.length + 1) := if_pos (by omega)
  have addedEq := add32_eq_ok_iff.mp added
  obtain ⟨filled, stores⟩ :
      ∃ filled, forkState.storeBlockCommitment (child.getCommitHash rt) = .ok filled := by
    simp only [ForkState.storeBlockCommitment, update_of_lt _ inRange, added, ok_bind]
    exact ⟨_, rfl⟩
  rcases ForkState.storeBlockCommitment_spec stores with ⟨fields, _, lengthEq, bound⟩
  have start : filled.startHeight = forkState.startHeight := by
    rw [fields]
  rcases @exists_copyCommitments main filled bound (by rw [start]; omega) (by omega) with
    ⟨next, copied⟩
  have opens : openFork rt main forkState parent forkId = .ok (main, forkState) := by
    simp only [openFork, if_neg initialized, isTip, require_of_true, ok_bind]
  have run := @submitHeaders_of_submittable rt ctx parent child _
    (fun forkState _ => ForkState.storeBlockCommitment forkState) (.storeFork forkId) _ _ _
    submittable accounts rfl stores
  have notInit : false = decide (forkState.initialized = 0) := by
    simp [initialized]
  simp only [submitForkHeaders, requireHeaders_singleton accounts, loadFork,
    require_of_true _ notInit, opens, run, copied, ok_bind]
  split
  · exact ⟨_, _, _, rfl, rfl⟩
  · exact ⟨_, _, _, rfl, rfl⟩

def extensions (rt : Runtime) : CommittedBlockHeader → List CommittedBlockHeader → List Request
  | _, [] => []
  | tip, child :: children =>
      Sample.extend rt [child.header] tip :: extensions rt child children

theorem initial?_of_mem_extensions {tip : CommittedBlockHeader} {blocks : List CommittedBlockHeader}
    {request : Request} (member : request ∈ extensions rt tip blocks) :
    request.instruction.initial? = none := by
  induction blocks generalizing tip with
  | nil => cases member
  | cons child rest ih =>
      rcases List.mem_cons.mp member with rfl | inRest
      · rfl
      · exact ih inRest

/-- A relay that can be extended is extended by any number of headers. -/
theorem exists_run_extensions {steps : List RelayStep} {ledger : Ledger}
    {blocks : List CommittedBlockHeader} (run : RelayRun rt steps ledger)
    (present : ledger.mainState = some main) (extendable : Extendable rt main tip)
    (submittable : (tip :: blocks).IsChain (Submittable rt 1721030000))
    (room : main.totalBlocks.toNat + blocks.length < 2 ^ 32) :
    ∃ later after next, RelayRun rt (later ++ steps) after ∧ after.mainState = some next ∧
      Extendable rt next (blocks.getLastD tip) ∧
      next.totalBlocks.toNat ≤ main.totalBlocks.toNat + blocks.length ∧
      after.forkState = ledger.forkState ∧
      later.map Step.request = (extensions rt tip blocks).reverse ∧
      accepted later ⊆ blocks ∧ presented later ⊆ tip :: blocks := by
  induction blocks generalizing steps ledger main tip with
  | nil =>
      exact ⟨[], ledger, main, run, present, extendable, le_refl _, rfl, rfl,
        List.Subset.refl _, List.nil_subset _⟩
  | cons child rest ih =>
      rcases List.isChain_cons_cons.mp submittable with ⟨first, others⟩
      rw [List.length_cons] at room ⊢
      rcases @exists_submitBlockHeaders rt (Sample.extend rt [child.header] tip).toContext main tip
        child extendable first rfl (by omega) with ⟨next, submitted, extendableNext, total⟩
      have success : process rt ledger (Sample.extend rt [child.header] tip) =
          .ok ({ ledger with mainState := some next }, [headerEvent rt .storeHeader child]) := by
        simp only [process, Sample.extend, Sample.request, present, load, ok_bind] at submitted ⊢
        rw [submitted]
        rfl
      rcases ih (.step run success) rfl extendableNext others (by omega) with
        ⟨later, after, last, run', present', extendable', total', forks, requests, accepted',
          presented'⟩
      refine ⟨later ++ [⟨ledger, Sample.extend rt [child.header] tip,
        { ledger with mainState := some next }, [headerEvent rt .storeHeader child]⟩], after, last,
        ?_, present', ?_, by omega, forks, ?_, ?_, ?_⟩
      · rw [List.append_assoc]
        exact run'
      · rw [List.getLastD_cons]
        exact extendable'
      · rw [List.map_append, requests, extensions, List.reverse_cons]
        rfl
      · intro committed member
        simp only [accepted, List.flatMap_append, List.flatMap_singleton, List.mem_append] at member
        rcases member with old | new
        · exact List.mem_cons_of_mem child (accepted' old)
        · rw [List.mem_singleton.mp new]
          exact List.mem_cons_self
      · intro committed member
        simp only [presented, List.filterMap_append, List.mem_append] at member
        rcases member with old | new
        · exact List.mem_cons_of_mem tip (presented' old)
        · rw [List.mem_singleton.mp new]
          exact List.mem_cons_self

end

end BtcRelay
