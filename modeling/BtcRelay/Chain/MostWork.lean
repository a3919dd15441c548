import BtcRelay.Network.Replay

/-!
# The most-work rule

The main chain has at least the work of every header that was ever accepted, wherever it
was stored: a submission ends with the main state at the last of its headers or leaves
that header with no more work than the main state has, and along a chain of headers the
work does not decrease.
-/

namespace BtcRelay

open BigEndian History

/-- No sum of work along the given headers reaches `2 ^ 256`. -/
def NoOverflow (rt : Runtime) (headers : Set CommittedBlockHeader) : Prop :=
  ∀ parent ∈ headers, ∀ child ∈ headers, Extends rt parent child → ∀ target difficulty,
    nbitsToTarget child.header.nbits = .ok target → getDifficulty target = .ok difficulty →
    value parent.chainWork + value difficulty < 2 ^ 256

section

variable {rt : Runtime} {headers : Set CommittedBlockHeader} {base tip block : CommittedBlockHeader}
  {blocks : List CommittedBlockHeader}

theorem NoOverflow.mono {more : Set CommittedBlockHeader} (bounded : NoOverflow rt more)
    (included : headers ⊆ more) : NoOverflow rt headers :=
  fun parent parentMem child childMem =>
    bounded parent (included parentMem) child (included childMem)

/-- A difficulty is far from overflowing a sum below `2 ^ 255`. -/
theorem noOverflow_of_lt (small : ∀ committed ∈ headers, value committed.chainWork < 2 ^ 255) :
    NoOverflow rt headers := by
  intro parent parentMem child _ _ target difficulty decoded quotient
  have work := ((getDifficulty_eq_ok_iff decoded).mp quotient).2
  have least : value difficulty ≤ Bitcoin.maxDifficulty := by
    rw [work]
    exact Nat.div_le_self _ _
  have most : Bitcoin.maxDifficulty < 2 ^ 255 := by decide
  have bound := small parent parentMem
  omega

theorem NoOverflow.chainWork_le (bounded : NoOverflow rt headers) (base_mem : base ∈ headers)
    (block_mem : block ∈ headers) (extend : Extends rt base block) :
    value base.chainWork ≤ value block.chainWork := by
  rcases extend.checks with ⟨_, _, checks⟩
  rcases checks.work with ⟨target, difficulty, decoded, _, quotient, chainWork⟩
  have bound := bounded base base_mem block block_mem extend target difficulty decoded quotient
  rw [chainWork, value_ofNat, Nat.mod_eq_of_lt (by omega)]
  exact Nat.le_add_right _ _

theorem NoOverflow.chainWork_le_last (bounded : NoOverflow rt headers)
    (chain : blocks.IsChain (Extends rt)) (last : blocks.getLast? = some tip)
    (members : ∀ block ∈ blocks, block ∈ headers) :
    ∀ block ∈ blocks, value block.chainWork ≤ value tip.chainWork := by
  induction chain with
  | nil => cases last
  | singleton only =>
      rw [List.getLast?_singleton, Option.some.injEq] at last
      intro block member
      rw [List.mem_singleton.mp member, last]
  | @cons_cons first second rest extend chain ih =>
      rw [List.getLast?_cons_cons] at last
      have restMembers := fun block member => members block (List.mem_cons_of_mem first member)
      have bound := ih last restMembers
      intro block member
      rcases List.mem_cons.mp member with rfl | member
      · apply le_trans (bounded.chainWork_le (members _ List.mem_cons_self)
          (restMembers second List.mem_cons_self) extend)
        exact bound second List.mem_cons_self
      · exact bound block member

end

section

variable {rt : Runtime} {steps earlier : List RelayStep} {ledger : Ledger} {main : MainState}

theorem chainWork_le_of_run (run : RelayRun rt steps ledger)
    (sound : SoundHashes rt (occurring steps)) (bounded : NoOverflow rt { c | c ∈ accepted steps })
    (present : ledger.mainState = some main) :
    ∀ committed ∈ accepted steps, value committed.chainWork ≤ value main.chainWork := by
  induction run generalizing main with
  | start fresh =>
      rw [fresh.mainState] at present
      cases present
  | @step steps before after request output run success ih =>
      have whole := Run.step run success
      have suffix := List.suffix_cons (⟨before, request, after, output⟩ : RelayStep) steps
      have soundBefore := sound.mono (occurring_mono suffix)
      have invariant := chainInvariant_of_run run soundBefore
      have oldMembers := accepted_mono suffix
      have previous {main : MainState} (here : before.mainState = some main) :=
        ih soundBefore (bounded.mono fun _ member => oldMembers member) here
      have newMembers : ∀ block ∈ output.filterMap Event.header?,
          block ∈ accepted (⟨before, request, after, output⟩ :: steps) :=
        fun block member => List.mem_append_left _ member
      -- the headers of the step and the earlier ones are bounded one after the other
      intro committed member
      rw [accepted_cons, List.mem_append] at member
      cases mainStep_of_run whole sound with
      | created instruction absent updated accepted_eq =>
          cases updated.symm.trans present
          have empty := (invariant.unstarted absent).1
          rcases member with new | old
          · rw [accepted_eq, List.mem_singleton] at new
            rw [new]
            exact le_refl _
          · have := Set.ext_iff.mp empty committed
            simp only [Set.mem_ofPred_eq, old, Set.mem_empty_iff_false, true_iff] at this
      | unmoved _ unchanged accepted_eq =>
          rw [unchanged] at present
          rcases member with new | old
          · rw [accepted_eq] at new
            cases new
          · exact previous present committed old
      | kept _ here updated _ chain last lighter =>
          cases updated.symm.trans present
          rcases member with new | old
          · exact le_trans
              (bounded.chainWork_le_last chain.tail last newMembers committed new) lighter
          · exact previous here committed old
      | @committed main' next data base tip instruction here updated base_mem advances =>
          cases updated.symm.trans present
          have last : (base :: output.filterMap Event.header?).getLast? = some tip := by
            rw [List.getLast?_cons, advances.last, Option.getD_some]
          have members : ∀ block ∈ base :: output.filterMap Event.header?,
              block ∈ accepted (⟨before, request, after, output⟩ :: steps) := by
            intro block member
            rcases List.mem_cons.mp member with rfl | member
            · exact oldMembers base_mem
            · exact newMembers block member
          have bound := bounded.chainWork_le_last advances.chain last members
          rw [advances.moves.chainWork]
          rcases member with new | old
          · exact bound committed (List.mem_cons_of_mem base new)
          · apply le_trans (previous here committed old)
            rcases instruction with ⟨_, isTip⟩ | ⟨_, heavier⟩
            · rw [isTip.chainWork]
              exact bound base List.mem_cons_self
            · exact le_of_lt heavier
      | @adopted main' next data base parent tip earlier forkId init _ here updated _ base_mem
          earlier_mem _ advances _ _ heavier =>
          cases updated.symm.trans present
          have members : ∀ block ∈ earlier ++ output.filterMap Event.header?,
              block ∈ accepted (⟨before, request, after, output⟩ :: steps) := by
            intro block member
            rcases List.mem_append.mp member with old | new
            · exact oldMembers (earlier_mem block old)
            · exact newMembers block new
          have bound := bounded.chainWork_le_last advances.chain.tail advances.last members
          rw [advances.moves.chainWork]
          rcases member with new | old
          · exact bound committed (List.mem_append_right earlier new)
          · exact le_trans (previous here committed old) (le_of_lt heavier)

/-- The main chain has the most work of all the headers ever accepted, and its work never
decreases. -/
theorem mostWork_of_run (run : RelayRun rt steps ledger)
    (sound : SoundHashes rt (occurring steps)) (bounded : NoOverflow rt { c | c ∈ accepted steps })
    (present : ledger.mainState = some main) :
    (∀ committed ∈ accepted steps, value committed.chainWork ≤ value main.chainWork) ∧
      ∀ step ∈ steps, ∀ earlier, step.before.mainState = some earlier →
        value earlier.chainWork ≤ value main.chainWork := by
  have heaviest := chainWork_le_of_run run sound bounded present
  refine ⟨heaviest, ?_⟩
  intro step member earlier present'
  -- the earlier work is that of an earlier tip, which some step accepted
  rcases run.of_mem member with ⟨before, run', _, _, suffix⟩
  have suffix' := (List.suffix_cons step before).trans suffix
  have invariant := chainInvariant_of_run run' (sound.mono (occurring_mono suffix'))
  rcases (invariant.main earlier present').tip with ⟨tip, tip_mem, isTip⟩
  rw [isTip.chainWork]
  exact heaviest tip (accepted_mono suffix' tip_mem)

end

section

open Sample

theorem mostWork_reorganisation :
    (∀ committed ∈ accepted (replay mainnet reorganisation).1,
        value committed.chainWork ≤ value (mainStateAfter mainnet reorganisation).chainWork) ∧
      ∀ step ∈ (replay mainnet reorganisation).1, ∀ earlier,
        step.before.mainState = some earlier →
          value earlier.chainWork ≤ value (mainStateAfter mainnet reorganisation).chainWork := by
  apply mostWork_of_run (run_replay mainnet reorganisation)
  · exact soundHashes_reorganisation.mono occurring_reorganisation
  · apply noOverflow_of_lt
    intro committed member
    have small : ∀ committed ∈ [start, main1, short1, short2],
        value committed.chainWork < 2 ^ 255 := of_decide_eq_true (by decide +kernel)
    exact small committed (occurring_reorganisation (Or.inl member))
  · exact mainState_reorganisation

end

end BtcRelay
