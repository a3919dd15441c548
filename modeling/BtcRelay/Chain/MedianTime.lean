import BtcRelay.Chain.LightClientSoundness
import BtcRelay.Foundations.MovingMedian

/-!
# The median time past

The eleven times that a committed header carries are a moving window over the times of the
blocks that lead to it. Their median never falls along a chain, whatever the times are in
between, and every six blocks it climbs by at least a second. As no block may be more than
four hours ahead of the clock, the clock bounds the height of every chain that the relay
follows, also where the target does not.
-/

namespace BtcRelay

open History OrderStatistics Relation

namespace CommittedBlockHeader

/-- The times of the block and of the ten before it, the newest first. -/
def window (committed : CommittedBlockHeader) : List ℕ :=
  committed.header.timestamp.toNat :: committed.earlierTimes

def medianTimePast (committed : CommittedBlockHeader) : ℕ :=
  median 0 committed.window

theorem length_window (committed : CommittedBlockHeader) : committed.window.length = 11 := by
  rw [window, List.length_cons, length_earlierTimes]

theorem movingMedian_window (committed : CommittedBlockHeader) :
    movingMedian 11 0 committed.window = committed.medianTimePast := by
  rw [movingMedian, medianTimePast, List.take_of_length_le (le_of_eq committed.length_window)]

end CommittedBlockHeader

/-- The times of the blocks on top of an ancestor, the newest first, that lead to a descendant. -/
structure TimesOnTop (ancestor descendant : CommittedBlockHeader) (newer : List ℕ) : Prop where
  above : AboveMedian 11 0 ancestor.window newer
  window : descendant.window = (newer ++ ancestor.window).take 11
  height : descendant.blockheight.toNat = ancestor.blockheight.toNat + newer.length

/-- The time and the median time past of a descendant are bounded from below by an ancestor. -/
structure LaterThan (ancestor descendant : CommittedBlockHeader) : Prop where
  time : ancestor.medianTimePast < descendant.header.timestamp.toNat
  medianTimePast : ancestor.medianTimePast ≤ descendant.medianTimePast
  height : descendant.blockheight.toNat ≤ ancestor.blockheight.toNat +
    6 * (descendant.header.timestamp.toNat - ancestor.medianTimePast)

section

variable {rt : Runtime} {parent child ancestor descendant : CommittedBlockHeader}
  {newer : List ℕ}

theorem Extends.window (extend : Extends rt parent child) :
    child.window = child.header.timestamp.toNat :: parent.window.take 10 := by
  rcases extend.checks with ⟨_, _, checks⟩
  have earlier : child.earlierTimes =
      parent.header.timestamp.toNat :: parent.earlierTimes.take 9 := by
    rw [CommittedBlockHeader.earlierTimes, checks.prevBlockTimestamps, earlierTimes_shift]
    rfl
  rw [CommittedBlockHeader.window, earlier]
  rfl

theorem Extends.medianTimePast_lt (extend : Extends rt parent child) :
    parent.medianTimePast < child.header.timestamp.toNat := by
  rcases extend.checks with ⟨_, _, checks⟩
  exact (isLargerThanMedian_iff _ _ _).mp checks.median

namespace TimesOnTop

theorem movingMedian_eq (times : TimesOnTop ancestor descendant newer) :
    movingMedian 11 0 (newer ++ ancestor.window) = descendant.medianTimePast := by
  rw [movingMedian, ← times.window]
  rfl

theorem extend (times : TimesOnTop ancestor parent newer) (extend : Extends rt parent child) :
    TimesOnTop ancestor child (child.header.timestamp.toNat :: newer) where
  above := by
    apply AboveMedian.cons _ times.above
    rw [times.movingMedian_eq]
    exact extend.medianTimePast_lt
  window := by
    rw [extend.window, times.window, List.take_take]
    rfl
  height := by
    rw [extend.height, times.height, List.length_cons]
    omega

end TimesOnTop

theorem exists_timesOnTop (descends : TransGen (Extends rt) ancestor descendant) :
    ∃ newer, TimesOnTop ancestor descendant (descendant.header.timestamp.toNat :: newer) := by
  have start : TimesOnTop ancestor ancestor [] := by
    refine ⟨.nil, ?_, rfl⟩
    exact (List.take_of_length_le (le_of_eq ancestor.length_window)).symm
  induction descends with
  | single extend => exact ⟨[], start.extend extend⟩
  | tail _ extend ih =>
      rcases ih with ⟨newer, times⟩
      exact ⟨_, times.extend extend⟩

theorem laterThan_of_transGen (descends : TransGen (Extends rt) ancestor descendant) :
    LaterThan ancestor descendant := by
  rcases exists_timesOnTop descends with ⟨newer, times⟩
  have long : 11 ≤ ancestor.window.length := le_of_eq ancestor.length_window.symm
  refine ⟨?_, ?_, ?_⟩
  · rw [← ancestor.movingMedian_window]
    exact times.above.movingMedian_lt_of_mem long _ List.mem_cons_self
  · rw [← ancestor.movingMedian_window, ← times.movingMedian_eq]
    exact times.above.movingMedian_le long
  · have bound := times.above.length_le (by decide) long
    rw [ancestor.movingMedian_window] at bound
    have height := times.height
    omega

theorem Accepted.timestamp_lt {unixTimestamp : ℤ} {submitted : List (BlockHeader × Pubkey)}
    {children : List CommittedBlockHeader}
    (accepted : Accepted rt unixTimestamp parent submitted children) :
    ∀ child ∈ children, (child.header.timestamp.toNat : ℤ) < unixTimestamp + 14400 := by
  induction accepted with
  | nil =>
      intro child member
      cases member
  | cons checks link tail ih =>
      intro child member
      rcases List.mem_cons.mp member with rfl | later
      · exact checks.clock.2.2
      · exact ih child later

/-- The headers that a step accepts, other than the one of `initialize`, are not far ahead of the
clock. -/
theorem timestamp_lt_of_chainStep {before after : Ledger} {request : Request}
    {children : List CommittedBlockHeader} (step : ChainStep rt before after request children)
    (present : before.mainState ≠ none) :
    ∀ child ∈ children, (child.header.timestamp.toNat : ℤ) < request.unixTimestamp + 14400 := by
  cases step with
  | created instruction absent => exact absurd absent present
  | extend _ _ _ _ batch => exact batch.accepted.timestamp_lt
  | shortFork _ _ _ _ batch => exact batch.accepted.timestamp_lt
  | fork _ _ _ _ _ batch => exact batch.accepted.timestamp_lt
  | close =>
      intro child member
      cases member
  | idle =>
      intro child member
      cases member

end

/-- An accepted header is the one that the run initializes the relay with, or it descends from it
and is not far ahead of the latest clock value of the run. -/
def FromInitial (rt : Runtime) (steps : List RelayStep) (committed : CommittedBlockHeader) : Prop :=
  ∃ step ∈ steps, ∃ initial, step.request.instruction.initial? = some initial ∧
    (committed = initial ∨ TransGen (Extends rt) initial committed ∧
      ∃ step ∈ steps, (committed.header.timestamp.toNat : ℤ) < step.request.unixTimestamp + 14400)

section

variable {rt : Runtime} {steps earlier : List RelayStep} {ledger : Ledger}
  {base committed : CommittedBlockHeader}

theorem FromInitial.mono (fromInitial : FromInitial rt earlier committed)
    (suffix : earlier <:+ steps) : FromInitial rt steps committed := by
  rcases fromInitial with ⟨step, member, initial, started, rest⟩
  refine ⟨step, suffix.subset member, initial, started, ?_⟩
  rcases rest with same | ⟨descends, clocked, clockedMem, early⟩
  · exact Or.inl same
  · exact Or.inr ⟨descends, clocked, suffix.subset clockedMem, early⟩

theorem transGen_of_isChain {blocks : List CommittedBlockHeader}
    (chain : (base :: blocks).IsChain (Extends rt)) :
    ∀ block ∈ blocks, TransGen (Extends rt) base block := by
  induction blocks generalizing base with
  | nil =>
      intro block member
      cases member
  | cons first rest ih =>
      rcases List.isChain_cons_cons.mp chain with ⟨extend, tail⟩
      intro block member
      rcases List.mem_cons.mp member with rfl | later
      · exact .single extend
      · exact .head extend (ih tail block later)

theorem fromInitial_of_run (run : RelayRun rt steps ledger)
    (sound : SoundHashes rt (occurring steps)) :
    ∀ committed ∈ accepted steps, FromInitial rt steps committed := by
  induction run with
  | start fresh =>
      intro committed member
      cases member
  | @step steps before after request output run success ih =>
      have whole := Run.step run success
      have suffix := List.suffix_cons (⟨before, request, after, output⟩ : RelayStep) steps
      have soundBefore := sound.mono (occurring_mono suffix)
      have older := ih soundBefore
      intro committed member
      rw [accepted_cons, List.mem_append] at member
      rcases member with new | old
      · rcases accepted_of_run whole sound with
          ⟨initial, started, only⟩ | none | ⟨base, earlier, chain⟩
        · rw [only, List.mem_singleton] at new
          exact ⟨_, List.mem_cons_self, initial, started, Or.inl new⟩
        · rw [none] at new
          cases new
        · have present : before.mainState ≠ none := by
            intro absent
            have unstarted := (chainInvariant_of_run run soundBefore).unstarted absent
            have empty : base ∈ (∅ : Set CommittedBlockHeader) := unstarted.1 ▸ earlier
            exact empty
          have early := timestamp_lt_of_chainStep (chainStep_of_process success) present
            committed new
          have onTop := transGen_of_isChain chain committed new
          rcases (older base earlier).mono suffix with ⟨step, stepMem, initial, started, rest⟩
          refine ⟨step, stepMem, initial, started, Or.inr ⟨?_, _, List.mem_cons_self, early⟩⟩
          rcases rest with rfl | ⟨descends, _⟩
          · exact onTop
          · exact descends.trans onTop
      · exact (older committed old).mono suffix

/-- In every run each accepted header is later than all of its ancestors, by the median time past,
and the clock bounds its height. -/
theorem laterThan_of_run (run : RelayRun rt steps ledger)
    (sound : SoundHashes rt (occurring steps)) {now : ℕ}
    (clock : ∀ step ∈ steps, step.request.unixTimestamp ≤ now) :
    ∀ committed ∈ accepted steps,
      (∀ ancestor, TransGen (Extends rt) ancestor committed → LaterThan ancestor committed) ∧
      ∃ step ∈ steps, ∃ initial, step.request.instruction.initial? = some initial ∧
        ReflTransGen (Extends rt) initial committed ∧
        committed.blockheight.toNat ≤
          initial.blockheight.toNat + 6 * (now + 14400 - initial.medianTimePast) := by
  intro committed member
  refine ⟨fun ancestor descends => laterThan_of_transGen descends, ?_⟩
  rcases fromInitial_of_run run sound committed member with
    ⟨step, stepMem, initial, started, rfl | ⟨descends, clocked, clockedMem, early⟩⟩
  · exact ⟨step, stepMem, committed, started, .refl, by omega⟩
  · have latest := clock clocked clockedMem
    have bound := (laterThan_of_transGen descends).height
    exact ⟨step, stepMem, initial, started, descends.to_reflTransGen, by omega⟩

end

section

open Sample

theorem laterThan_reorganisation :
    short2 ∈ accepted (replay mainnet reorganisation).1 ∧
    ∀ committed ∈ accepted (replay mainnet reorganisation).1,
      (∀ ancestor, TransGen (Extends mainnet) ancestor committed → LaterThan ancestor committed) ∧
      ∃ step ∈ (replay mainnet reorganisation).1, ∃ initial,
        step.request.instruction.initial? = some initial ∧
        ReflTransGen (Extends mainnet) initial committed ∧
        committed.blockheight.toNat ≤
          initial.blockheight.toNat + 6 * (1721030000 + 14400 - initial.medianTimePast) := by
  refine ⟨of_decide_eq_true (by decide +kernel), ?_⟩
  apply laterThan_of_run (run_replay mainnet reorganisation)
  · exact soundHashes_reorganisation.mono occurring_reorganisation
  · exact of_decide_eq_true (by decide +kernel)

end

end BtcRelay
