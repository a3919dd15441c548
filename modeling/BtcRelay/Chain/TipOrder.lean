import BtcRelay.Chain.Batching
import BtcRelay.Chain.ForkIds
import BtcRelay.Chain.WorkBounds
import Mathlib.Data.Prod.Lex

/-!
# The order of the tips

Chains are compared by their work first and by their height next. Every step that moves
the main chain moves it up in this order: an extension adds a block and takes no work
away, and a reorganisation adds work even where it lowers the height. So the relay never
returns to a tip that it has left, and no submission of headers succeeds twice.
-/

namespace BtcRelay

open BigEndian History

def MainState.rank (main : MainState) : ℕ ×ₗ ℕ :=
  toLex (value main.chainWork, main.blockHeight.toNat)

def CommittedBlockHeader.rank (committed : CommittedBlockHeader) : ℕ ×ₗ ℕ :=
  toLex (value committed.chainWork, committed.blockheight.toNat)

/-- The main chain and its tip are as before; only forks may have been counted. -/
def SameChain (main next : MainState) : Prop :=
  next = { main with forkCounter := next.forkCounter }

section

variable {rt : Runtime} {steps earlier : List RelayStep} {step : RelayStep} {ledger : Ledger}
  {main next : MainState} {base tip : CommittedBlockHeader} {blocks : List CommittedBlockHeader}

theorem SameChain.refl (main : MainState) : SameChain main main := rfl

theorem SameChain.trans {last : MainState} (first : SameChain main next)
    (second : SameChain next last) : SameChain main last := by
  simp only [SameChain] at first second ⊢
  rw [second, first]

theorem SameChain.rank_eq (same : SameChain main next) : next.rank = main.rank := by
  rw [same]
  rfl

theorem Advances.rank_eq (advances : Advances rt main base blocks tip next) :
    next.rank = tip.rank := by
  simp only [MainState.rank, CommittedBlockHeader.rank, advances.moves.chainWork,
    advances.blockHeight]

/-- A tip with more work, or with as much on top of the old tip, is above the old tip. -/
theorem Advances.rank_lt {headers : Set CommittedBlockHeader} (bounded : NoOverflow rt headers)
    (members : ∀ block ∈ base :: blocks, block ∈ headers)
    (advances : Advances rt main base blocks tip next)
    (moved : IsTip rt main base ∨ value main.chainWork < value tip.chainWork) :
    main.rank < next.rank := by
  rw [advances.rank_eq, MainState.rank, CommittedBlockHeader.rank, Prod.Lex.toLex_lt_toLex]
  rcases moved with isTip | heavier
  · have last : (base :: blocks).getLast? = some tip := by
      rw [List.getLast?_cons, advances.last, Option.getD_some]
    have work := bounded.chainWork_le_last advances.chain last members base List.mem_cons_self
    have above := height_of_mem_of_isChain advances.chain (List.mem_of_getLast? advances.last)
    simp only [isTip.chainWork, isTip.blockHeight]
    omega
  · exact Or.inl heavier

/-- What one step does to the chain. -/
theorem sameChain_or_rank_lt (run : RelayRun rt (step :: earlier) ledger)
    (sound : SoundHashes rt (occurring (step :: earlier)))
    (bounded : NoOverflow rt { c | c ∈ accepted (step :: earlier) })
    (present : step.before.mainState = some main) :
    ∃ next, step.after.mainState = some next ∧ (SameChain main next ∨ main.rank < next.rank) := by
  have old := accepted_mono (List.suffix_cons step earlier)
  have new : ∀ block ∈ step.output.filterMap Event.header?, block ∈ accepted (step :: earlier) :=
    fun block member => List.mem_append_left _ member
  cases mainStep_of_run run sound with
  | created _ absent =>
      rw [present] at absent
      cases absent
  | unmoved _ unchanged => exact ⟨main, unchanged.trans present, Or.inl (SameChain.refl main)⟩
  | kept _ here updated =>
      cases present.symm.trans here
      exact ⟨_, updated, Or.inl rfl⟩
  | @committed _ next data base tip instruction here updated base_mem advances =>
      cases present.symm.trans here
      refine ⟨next, updated, Or.inr ?_⟩
      apply advances.rank_lt bounded
      · intro block member
        rcases List.mem_cons.mp member with rfl | member
        · exact old base_mem
        · exact new block member
      · exact instruction.imp And.right And.right
  | @adopted _ next data base parent tip before forkId init _ here updated _ base_mem before_mem _
      advances _ _ heavier =>
      cases present.symm.trans here
      refine ⟨next, updated, Or.inr ?_⟩
      apply advances.rank_lt bounded
      · intro block member
        rcases List.mem_cons.mp member with rfl | member
        · exact old base_mem
        · rcases List.mem_append.mp member with member | member
          · exact old (before_mem block member)
          · exact new block member
      · exact Or.inr heavier

/-- The chain is the same or has moved up. -/
def Improves (main next : MainState) : Prop := SameChain main next ∨ main.rank < next.rank

theorem Improves.trans {last : MainState} (first : Improves main next)
    (second : Improves next last) : Improves main last := by
  rcases first, second with ⟨same | below, same' | above⟩
  · exact Or.inl (same.trans same')
  · right
    rw [← same.rank_eq]
    exact above
  · right
    rw [same'.rank_eq]
    exact below
  · exact Or.inr (below.trans above)

theorem Improves.rank_le (improves : Improves main next) : main.rank ≤ next.rank := by
  rcases improves with same | above
  · exact le_of_eq same.rank_eq.symm
  · exact le_of_lt above

theorem improves_of_run (run : RelayRun rt steps ledger) (sound : SoundHashes rt (occurring steps))
    (bounded : NoOverflow rt { c | c ∈ accepted steps }) :
    ∀ step ∈ steps, ∀ main, step.after.mainState = some main →
      ∃ next, ledger.mainState = some next ∧ Improves main next := by
  induction run with
  | start =>
      intro step member
      cases member
  | @step steps before after request output run success ih =>
      have suffix := List.suffix_cons (⟨before, request, after, output⟩ : RelayStep) steps
      have previous := ih (sound.mono (occurring_mono suffix))
        (bounded.mono fun _ member => accepted_mono suffix member)
      intro step member main started
      rcases List.mem_cons.mp member with rfl | old
      · exact ⟨main, started, Or.inl (SameChain.refl main)⟩
      · rcases previous step old main started with ⟨middle, here, improves⟩
        rcases sameChain_or_rank_lt (Run.step run success) sound bounded here with
          ⟨next, updated, moved⟩
        exact ⟨next, updated, improves.trans moved⟩

/-- Since any earlier moment of a run the chain has stayed the same, or has moved up to more work
or to the same work at a greater height. -/
theorem tipOrder_of_run (run : RelayRun rt steps ledger) (sound : SoundHashes rt (occurring steps))
    (room : LeavesRoom steps) (present : ledger.mainState = some main) :
    ∀ step ∈ steps, ∀ earlier, step.before.mainState = some earlier →
      SameChain earlier main ∨ earlier.rank < main.rank := by
  have bounded := noOverflow_of_leavesRoom run sound room
  intro step member earlier started
  rcases run.of_mem member with ⟨_, _, _, run', suffix⟩
  rcases sameChain_or_rank_lt run' (sound.mono (occurring_mono suffix))
    (bounded.mono fun _ member => accepted_mono suffix member) started with ⟨middle, here, moved⟩
  rcases improves_of_run run sound bounded step member middle here with ⟨next, updated, improves⟩
  cases present.symm.trans updated
  exact Improves.trans moved improves

end

section

open Sample

theorem tipOrder_reorganisation :
    ∃ main, (replay mainnet reorganisation).2.mainState = some main ∧
      ∀ step ∈ (replay mainnet reorganisation).1, ∀ earlier,
        step.before.mainState = some earlier →
          SameChain earlier main ∨ earlier.rank < main.rank := by
  refine ⟨mainStateAfter mainnet reorganisation, mainState_reorganisation, ?_⟩
  apply tipOrder_of_run (run_replay mainnet reorganisation)
  · exact soundHashes_reorganisation.mono occurring_reorganisation
  · exact leavesRoom_reorganisation
  · exact mainState_reorganisation

end

end BtcRelay
