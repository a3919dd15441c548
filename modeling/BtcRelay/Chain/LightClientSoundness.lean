import BtcRelay.Network.Replay

/-!
# Soundness of the light client over runs

Whatever is stored in the ring buffer or in a fork account during a run is the commitment
of a header with a lineage: a chain of headers that starts at the one given to
`initialize` and follows the header rules of the main network.
-/

namespace BtcRelay

open Bitcoin History

/-- The headers, the newest first, that lead from an initial committed header to another one. -/
structure LineageFrom (rt : Runtime) (initial : CommittedBlockHeader) (headers : List BlockHeader)
    (committed : CommittedBlockHeader) : Prop where
  last : committed.header = headers.headD initial.header
  valid : (initial.toAnchor rt).Valid (headers.map (BlockHeader.toHeader rt))
  represents : committed.Represents rt (initial.toAnchor rt)
    (headers.map (BlockHeader.toHeader rt))

/-- A committed header has a lineage from a header that the run initializes the relay with. -/
def HasLineage (rt : Runtime) (steps : List RelayStep) (committed : CommittedBlockHeader) : Prop :=
  ∃ step ∈ steps, ∃ initial headers, step.request.instruction.initial? = some initial ∧
    LineageFrom rt initial headers committed

/-- A commitment is in the ring buffer or in a fork account. -/
def Ledger.Stores (ledger : Ledger) (commitment : Bytes32) : Prop :=
  (∃ main, ledger.mainState = some main ∧ commitment ∈ main.blockCommitments.toList) ∨
    ∃ forkId signer forkState, ledger.forkState forkId signer = some forkState ∧
      commitment ∈ forkState.stored

section

variable {rt : Runtime} {steps earlier : List RelayStep} {step : RelayStep} {ledger : Ledger}
  {committed parent child : CommittedBlockHeader}

theorem HasLineage.mono (lineage : HasLineage rt earlier committed) (suffix : earlier <:+ steps) :
    HasLineage rt steps committed := by
  rcases lineage with ⟨step, member, rest⟩
  exact ⟨step, suffix.subset member, rest⟩

theorem HasLineage.extend (lineage : HasLineage rt steps parent) (extend : Extends rt parent child)
    (mainnet : rt.bitcoinTestnet = false) : HasLineage rt steps child := by
  rcases lineage with ⟨step, member, initial, headers, started, lineage⟩
  refine ⟨step, member, initial, child.header :: headers, started, rfl, ?_, ?_⟩
  · exact .cons (extend.next mainnet lineage.represents) lineage.valid
  · exact extend.represents lineage.represents

theorem HasLineage.of_isChain {blocks : List CommittedBlockHeader}
    (lineage : HasLineage rt steps parent) (chain : (parent :: blocks).IsChain (Extends rt))
    (mainnet : rt.bitcoinTestnet = false) : ∀ block ∈ blocks, HasLineage rt steps block := by
  induction blocks generalizing parent with
  | nil =>
      intro block member
      cases member
  | cons first rest ih =>
      rcases List.isChain_cons_cons.mp chain with ⟨extend, tail⟩
      have here := lineage.extend extend mainnet
      intro block member
      rcases List.mem_cons.mp member with rfl | later
      · exact here
      · exact ih here tail block later

theorem accepted_of_run (run : RelayRun rt (step :: earlier) ledger)
    (sound : SoundHashes rt (occurring (step :: earlier))) :
    (∃ initial, step.request.instruction.initial? = some initial ∧
        step.output.filterMap Event.header? = [initial]) ∨
      step.output.filterMap Event.header? = [] ∨
      ∃ base ∈ accepted earlier,
        (base :: step.output.filterMap Event.header?).IsChain (Extends rt) := by
  rcases run.of_cons with ⟨before, success, _⟩
  have suffix := List.suffix_cons step earlier
  have invariant := chainInvariant_of_run before (sound.mono (occurring_mono suffix))
  have chainStep := chainStep_of_process success
  cases present : step.before.mainState with
  | some main =>
      have onTop := exists_isChain_of_chainStep invariant sound
        (fun _ member => Or.inl (accepted_mono suffix member))
        (fun _ supplied => mem_occurring_of_commitedHeader? supplied) present chainStep
      rcases onTop with none | ⟨_, base, member, chain⟩
      · exact Or.inr (Or.inl none)
      · exact Or.inr (Or.inr ⟨base, member, chain⟩)
  | none =>
      generalize step.output.filterMap Event.header? = children at chainStep
      cases chainStep with
      | created instruction =>
          refine Or.inl ⟨_, ?_, rfl⟩
          rw [instruction]
          rfl
      | extend _ started => exact absurd (present.symm.trans started) (by simp)
      | shortFork _ started => exact absurd (present.symm.trans started) (by simp)
      | fork _ started => exact absurd (present.symm.trans started) (by simp)
      | close => exact Or.inr (Or.inl rfl)
      | idle => exact Or.inr (Or.inl rfl)

theorem hasLineage_of_run (run : RelayRun rt steps ledger)
    (sound : SoundHashes rt (occurring steps)) (mainnet : rt.bitcoinTestnet = false) :
    ∀ committed ∈ accepted steps, HasLineage rt steps committed := by
  induction run with
  | start fresh =>
      intro committed member
      cases member
  | @step steps before after request output run success ih =>
      have whole := Run.step run success
      have suffix := List.suffix_cons (⟨before, request, after, output⟩ : RelayStep) steps
      have older := ih (sound.mono (occurring_mono suffix))
      intro committed member
      rw [accepted_cons, List.mem_append] at member
      rcases member with new | old
      · rcases accepted_of_run whole sound with
          ⟨initial, started, only⟩ | none | ⟨base, earlier, chain⟩
        · rw [only, List.mem_singleton] at new
          subst new
          exact ⟨_, List.mem_cons_self, committed, [], started, rfl, .nil,
            committed.represents_self rt⟩
        · rw [none] at new
          cases new
        · exact ((older base earlier).mono suffix).of_isChain chain mainnet committed new
      · exact (older committed old).mono suffix

theorem mem_accepted_of_stores (run : RelayRun rt steps ledger)
    (sound : SoundHashes rt (insert committed (occurring steps)))
    (stores : ledger.Stores (committed.getCommitHash rt)) : committed ∈ accepted steps := by
  have included := Set.subset_insert committed (occurring steps)
  have invariant := chainInvariant_of_run run (sound.mono included)
  have here := Set.mem_insert committed (occurring steps)
  have same : ∀ other ∈ accepted steps, other.getCommitHash rt = committed.getCommitHash rt →
      committed ∈ accepted steps := by
    intro other member equal
    rw [sound.eq_of_getCommitHash here (included (Or.inl member)) equal.symm]
    exact member
  rcases stores with ⟨main, present, stored⟩ | ⟨forkId, signer, forkState, found, stored⟩
  · rcases (invariant.main main present).entries _ stored with empty | ⟨other, member, equal⟩
    · exact absurd empty (sound.nonzero committed here)
    · exact same other member equal
  · cases present : ledger.mainState with
    | none =>
        rw [(invariant.unstarted present).2] at found
        cases found
    | some main =>
        rcases invariant.forks main forkId signer forkState present found with
          ⟨base, blocks, fork, _⟩
        rw [fork.stored] at stored
        rcases List.mem_map.mp stored with ⟨other, member, equal⟩
        exact same other (fork.blocks_mem other member) equal

/-- Every committed header that was ever stored has a lineage. -/
theorem hasLineage_of_stores (run : RelayRun rt steps ledger)
    (mainnet : rt.bitcoinTestnet = false)
    (sound : SoundHashes rt (insert committed (occurring steps)))
    (stored : ∃ step ∈ steps, step.after.Stores (committed.getCommitHash rt)) :
    HasLineage rt steps committed := by
  rcases stored with ⟨step, member, stores⟩
  rcases run.of_mem member with ⟨earlier, _, _, after, suffix⟩
  have soundAfter := sound.mono (Set.insert_subset_insert (occurring_mono suffix))
  have accepted := mem_accepted_of_stores after soundAfter stores
  have soundRun := sound.mono (Set.subset_insert committed (occurring steps))
  exact hasLineage_of_run run soundRun mainnet committed (accepted_mono suffix accepted)

theorem stores_of_any {commitment : Bytes32}
    (stored : (steps.any fun step => step.after.mainState.any fun main =>
      commitment ∈ main.blockCommitments.toList) = true) :
    ∃ step ∈ steps, step.after.Stores commitment := by
  rcases List.any_eq_true.mp stored with ⟨step, member, inRing⟩
  rcases Option.any_eq_true _ _ |>.mp inRing with ⟨main, present, held⟩
  exact ⟨step, member, Or.inl ⟨main, present, of_decide_eq_true held⟩⟩

end

section

open Sample

theorem hasLineage_short2 : HasLineage mainnet (replay mainnet reorganisation).1 short2 := by
  apply hasLineage_of_stores (run_replay mainnet reorganisation) rfl
  · apply soundHashes_reorganisation.mono
    exact Set.insert_subset (by simp) occurring_reorganisation
  · apply stores_of_any
    decide +kernel

end

end BtcRelay
