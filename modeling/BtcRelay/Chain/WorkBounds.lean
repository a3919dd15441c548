import BtcRelay.Bitcoin.Retargets
import BtcRelay.Chain.AddedWork
import BtcRelay.Chain.MedianTime
import BtcRelay.Chain.MostWork

/-!
# Bounds on the work of a chain

The work of every chain that the relay follows is bounded from both sides by the header it
was initialized with. A block adds less than `2 ^ 208`, so no sum of work overflows, and the
work of the main chain is the greatest there is without any bound on the sums. On the main
network a block cannot be much cheaper than the first one, by a factor of four for each
retarget in between.
-/

namespace BtcRelay

open BigEndian Bitcoin History Relation

/-- The chain work that a run is initialized with leaves room for every chain of blocks. -/
def LeavesRoom (steps : List RelayStep) : Prop :=
  ∀ step ∈ steps, ∀ initial ∈ step.request.instruction.initial?,
    value initial.chainWork + 2 ^ 240 ≤ 2 ^ 256

instance (steps : List RelayStep) : Decidable (LeavesRoom steps) :=
  inferInstanceAs (Decidable (∀ step ∈ steps, ∀ initial ∈ step.request.instruction.initial?,
    value initial.chainWork + 2 ^ 240 ≤ 2 ^ 256))

def BlockHeader.target (header : BlockHeader) : ℕ := setCompact header.nbits.toNat

/-- The easiest target that can be reached at a height. -/
def CommittedBlockHeader.easiestTarget (initial : CommittedBlockHeader) (height : ℕ) : ℕ :=
  4 ^ retargets initial.blockheight.toNat height * initial.header.target

/-- The work of a chain of headers on top of an initial one, summed up without a bound. -/
inductive HasWork (rt : Runtime) (steps : List RelayStep) : CommittedBlockHeader → ℕ → Prop
  | initial {step : RelayStep} {initial : CommittedBlockHeader} (member : step ∈ steps)
      (started : step.request.instruction.initial? = some initial) :
      HasWork rt steps initial (value initial.chainWork)
  | extend {parent child : CommittedBlockHeader} {work : ℕ} (hasWork : HasWork rt steps parent work)
      (extend : Extends rt parent child) :
      HasWork rt steps child (work + child.header.addedWork)

/-- What it takes at least to have a header accepted: proof of work for all the blocks that lead
to it from the initial one. -/
structure Costs (rt : Runtime) (initial committed : CommittedBlockHeader) : Prop where
  height : initial.blockheight.toNat ≤ committed.blockheight.toNat
  target : committed.header.target ≤ initial.easiestTarget committed.blockheight.toNat
  proofOfWork : committed = initial ∨ value (committed.header.getBlockHash rt).reverse ≤
    initial.easiestTarget committed.blockheight.toNat
  work : value initial.chainWork +
      (committed.blockheight.toNat - initial.blockheight.toNat) *
        difficulty (initial.easiestTarget committed.blockheight.toNat) ≤
    value committed.chainWork

section

variable {rt : Runtime} {initial parent child committed : CommittedBlockHeader}
  {steps : List RelayStep} {ledger : Ledger} {main : MainState}

theorem Extends.minTarget (extend : Extends rt parent child) : 2 ^ 16 ≤ child.header.target := by
  rcases extend.checks with ⟨_, _, checks⟩
  rcases checks.work with ⟨target, difficulty, decoded, _, quotient, _⟩
  exact ((getDifficulty_eq_ok_iff decoded).mp quotient).1

theorem Extends.proofOfWork (extend : Extends rt parent child) :
    value (child.header.getBlockHash rt).reverse ≤ child.header.target := by
  rcases extend.checks with ⟨_, _, checks⟩
  rcases checks.work with ⟨target, difficulty, decoded, enoughWork, _, _⟩
  rw [(nbitsToTarget_eq_ok_iff.mp decoded).2] at enoughWork
  exact enoughWork

theorem Extends.addedWork_lt (extend : Extends rt parent child) :
    child.header.addedWork < 2 ^ 208 :=
  difficulty_lt extend.minTarget

theorem Extends.chainWork_mod (extend : Extends rt parent child) :
    value child.chainWork = (value parent.chainWork + child.header.addedWork) % 2 ^ 256 := by
  rcases extend.checks with ⟨_, _, checks⟩
  rcases checks.work with ⟨target, difficulty, decoded, _, quotient, chainWork⟩
  have words : (256 ^ 32 : ℕ) = 2 ^ 256 := by norm_num
  rw [chainWork, value_ofNat, ((getDifficulty_eq_ok_iff decoded).mp quotient).2, words]
  rfl

theorem height_le_of_reflTransGen (descends : ReflTransGen (Extends rt) initial committed) :
    initial.blockheight.toNat ≤ committed.blockheight.toNat := by
  induction descends with
  | refl => exact le_refl _
  | tail _ extend ih =>
      have height := extend.height
      omega

/-- Each block adds less than `2 ^ 208` to the work. -/
theorem chainWork_le_of_reflTransGen (descends : ReflTransGen (Extends rt) initial committed) :
    value committed.chainWork ≤ value initial.chainWork +
      (committed.blockheight.toNat - initial.blockheight.toNat) * 2 ^ 208 := by
  induction descends with
  | refl => exact Nat.le_add_right _ _
  | @tail parent child earlier extend ih =>
      have upTo := height_le_of_reflTransGen earlier
      have added := extend.addedWork_lt
      have blocks : child.blockheight.toNat - initial.blockheight.toNat =
          (parent.blockheight.toNat - initial.blockheight.toNat) + 1 := by
        rw [extend.height]
        omega
      rw [blocks, Nat.succ_mul, extend.chainWork_mod]
      apply le_trans (Nat.mod_le _ _)
      omega

theorem chainWork_add_lt (descends : ReflTransGen (Extends rt) initial parent)
    (extend : Extends rt parent child) (room : value initial.chainWork + 2 ^ 240 ≤ 2 ^ 256) :
    value parent.chainWork + child.header.addedWork < 2 ^ 256 := by
  have most := chainWork_le_of_reflTransGen descends
  have added := extend.addedWork_lt
  have height := extend.height
  have bound := child.blockheight.toNat_lt
  have blocks : (parent.blockheight.toNat - initial.blockheight.toNat) * 2 ^ 208 + 2 ^ 208 ≤
      2 ^ 240 := by
    have := Nat.mul_le_mul_right (2 ^ 208)
      (show parent.blockheight.toNat - initial.blockheight.toNat + 1 ≤ 2 ^ 32 by omega)
    omega
  omega

theorem Extends.chainWork_eq (extend : Extends rt parent child)
    (descends : ReflTransGen (Extends rt) initial parent)
    (room : value initial.chainWork + 2 ^ 240 ≤ 2 ^ 256) :
    value child.chainWork = value parent.chainWork + child.header.addedWork := by
  rcases extend.checks with ⟨_, _, checks⟩
  exact checks.chainWork_eq (chainWork_add_lt descends extend room)

theorem descends_initial_of_run (run : RelayRun rt steps ledger)
    (sound : SoundHashes rt (occurring steps)) (member : committed ∈ accepted steps) :
    ∃ step ∈ steps, ∃ initial, step.request.instruction.initial? = some initial ∧
      ReflTransGen (Extends rt) initial committed := by
  rcases fromInitial_of_run run sound committed member with
    ⟨step, stepMem, initial, started, rfl | ⟨descends, _⟩⟩
  · exact ⟨step, stepMem, committed, started, .refl⟩
  · exact ⟨step, stepMem, initial, started, descends.to_reflTransGen⟩

/-- In no run of either network does a sum of work reach `2 ^ 256`. -/
theorem noOverflow_of_leavesRoom (run : RelayRun rt steps ledger)
    (sound : SoundHashes rt (occurring steps)) (room : LeavesRoom steps) :
    NoOverflow rt { c | c ∈ accepted steps } := by
  intro parent parentMem child _ extend target difficulty decoded quotient
  rcases descends_initial_of_run run sound parentMem with ⟨step, stepMem, initial, started, descends⟩
  have sum := chainWork_add_lt descends extend (room step stepMem initial started)
  have work := ((getDifficulty_eq_ok_iff decoded).mp quotient).2
  rw [work]
  exact sum

theorem HasWork.descends {work : ℕ} (hasWork : HasWork rt steps committed work) :
    ∃ step ∈ steps, ∃ initial, step.request.instruction.initial? = some initial ∧
      ReflTransGen (Extends rt) initial committed := by
  induction hasWork with
  | initial member started => exact ⟨_, member, _, started, .refl⟩
  | extend _ extend ih =>
      rcases ih with ⟨step, member, initial, started, descends⟩
      exact ⟨step, member, initial, started, descends.tail extend⟩

theorem HasWork.eq_chainWork {work : ℕ} (hasWork : HasWork rt steps committed work)
    (room : LeavesRoom steps) : work = value committed.chainWork := by
  induction hasWork with
  | initial => rfl
  | extend hasWork extend ih =>
      rcases hasWork.descends with ⟨step, member, initial, started, descends⟩
      rw [extend.chainWork_eq descends (room step member initial started), ih]

theorem hasWork_of_reflTransGen {step : RelayStep} (room : LeavesRoom steps) (member : step ∈ steps)
    (started : step.request.instruction.initial? = some initial)
    (descends : ReflTransGen (Extends rt) initial committed) :
    HasWork rt steps committed (value committed.chainWork) := by
  induction descends with
  | refl => exact .initial member started
  | tail earlier extend ih =>
      rw [extend.chainWork_eq earlier (room step member initial started)]
      exact .extend ih extend

/-- The stored work of a header is the sum over its chain, and that of the main state is the
greatest sum over the chains of all the headers accepted. -/
theorem exactWork_of_run (run : RelayRun rt steps ledger) (sound : SoundHashes rt (occurring steps))
    (room : LeavesRoom steps) (present : ledger.mainState = some main) :
    (∀ committed ∈ accepted steps, ∀ work,
      HasWork rt steps committed work ↔ work = value committed.chainWork) ∧
    IsGreatest { work | ∃ committed ∈ accepted steps, HasWork rt steps committed work }
      (value main.chainWork) := by
  have exact : ∀ committed ∈ accepted steps,
      HasWork rt steps committed (value committed.chainWork) := by
    intro committed member
    rcases descends_initial_of_run run sound member with
      ⟨step, stepMem, initial, started, descends⟩
    exact hasWork_of_reflTransGen room stepMem started descends
  refine ⟨?_, ?_, ?_⟩
  · intro committed member work
    refine ⟨fun hasWork => hasWork.eq_chainWork room, ?_⟩
    rintro rfl
    exact exact committed member
  · rcases ((chainInvariant_of_run run sound).main main present).tip with ⟨tip, tip_mem, isTip⟩
    refine ⟨tip, tip_mem, ?_⟩
    rw [isTip.chainWork]
    exact exact tip tip_mem
  · rintro work ⟨committed, member, hasWork⟩
    rw [hasWork.eq_chainWork room]
    exact chainWork_le_of_run run sound (noOverflow_of_leavesRoom run sound room) present
      committed member

theorem costs_self (rt : Runtime) (initial : CommittedBlockHeader) : Costs rt initial initial where
  height := le_refl _
  target := by simp [CommittedBlockHeader.easiestTarget, retargets]
  proofOfWork := Or.inl rfl
  work := by simp

theorem Costs.extend (costs : Costs rt initial parent) (extend : Extends rt parent child)
    (mainnet : rt.bitcoinTestnet = false)
    (exact : value child.chainWork = value parent.chainWork + child.header.addedWork) :
    Costs rt initial child := by
  have height := extend.height
  have upTo := costs.height
  have minTarget := extend.minTarget
  have target : child.header.target ≤ initial.easiestTarget child.blockheight.toNat := by
    rcases extend.checks with ⟨_, _, checks⟩
    rcases hasCorrectDifficultyTarget_eq_ok_iff.mp (checks.nbits mainnet) with ⟨_, bits, _⟩
    rw [BlockHeader.target, bits, CommittedBlockHeader.easiestTarget, height]
    exact setCompact_requiredBits_le costs.height costs.target
  refine ⟨by omega, target, Or.inr (le_trans extend.proofOfWork target), ?_⟩
  have blocks : child.blockheight.toNat - initial.blockheight.toNat =
      (parent.blockheight.toNat - initial.blockheight.toNat) + 1 := by omega
  -- the blocks before had a target at least as hard
  have easier : initial.easiestTarget parent.blockheight.toNat ≤
      initial.easiestTarget child.blockheight.toNat := by
    apply Nat.mul_le_mul_right
    apply Nat.pow_le_pow_right (by decide)
    simp only [retargets]
    omega
  have positive : 0 < initial.easiestTarget parent.blockheight.toNat := by
    have startPositive : 0 < initial.header.target := by
      apply Nat.pos_of_ne_zero
      intro zero
      rw [CommittedBlockHeader.easiestTarget, zero, Nat.mul_zero] at target
      omega
    exact Nat.mul_pos (Nat.pow_pos (by decide)) startPositive
  have earlier : (parent.blockheight.toNat - initial.blockheight.toNat) *
      difficulty (initial.easiestTarget child.blockheight.toNat) ≤
      (parent.blockheight.toNat - initial.blockheight.toNat) *
        difficulty (initial.easiestTarget parent.blockheight.toNat) :=
    Nat.mul_le_mul_left _ (difficulty_anti positive easier)
  have here : difficulty (initial.easiestTarget child.blockheight.toNat) ≤
      child.header.addedWork := by
    have positiveTarget : 0 < child.header.target := by omega
    exact difficulty_anti positiveTarget target
  have before := costs.work
  rw [blocks, Nat.succ_mul, exact]
  omega

theorem costs_of_reflTransGen (descends : ReflTransGen (Extends rt) initial committed)
    (mainnet : rt.bitcoinTestnet = false) (room : value initial.chainWork + 2 ^ 240 ≤ 2 ^ 256) :
    Costs rt initial committed := by
  induction descends with
  | refl => exact costs_self rt initial
  | tail earlier extend ih => exact ih.extend extend mainnet (extend.chainWork_eq earlier room)

/-- On the main network every accepted header costs the proof of work for its chain. -/
theorem costs_of_run (run : RelayRun rt steps ledger) (sound : SoundHashes rt (occurring steps))
    (mainnet : rt.bitcoinTestnet = false) (room : LeavesRoom steps) :
    ∀ committed ∈ accepted steps, ∃ step ∈ steps, ∃ initial,
      step.request.instruction.initial? = some initial ∧ Costs rt initial committed := by
  intro committed member
  rcases descends_initial_of_run run sound member with ⟨step, stepMem, initial, started, descends⟩
  exact ⟨step, stepMem, initial, started,
    costs_of_reflTransGen descends mainnet (room step stepMem initial started)⟩

end

section

open Sample

theorem leavesRoom_reorganisation : LeavesRoom (replay mainnet reorganisation).1 := by
  decide +kernel

theorem exactWork_reorganisation :
    (∀ committed ∈ accepted (replay mainnet reorganisation).1, ∀ work,
      HasWork mainnet (replay mainnet reorganisation).1 committed work ↔
        work = value committed.chainWork) ∧
    IsGreatest
      { work | ∃ committed ∈ accepted (replay mainnet reorganisation).1,
        HasWork mainnet (replay mainnet reorganisation).1 committed work }
      (value (mainStateAfter mainnet reorganisation).chainWork) :=
  exactWork_of_run (run_replay mainnet reorganisation)
    (soundHashes_reorganisation.mono occurring_reorganisation) leavesRoom_reorganisation
    mainState_reorganisation

theorem costs_reorganisation :
    short2 ∈ accepted (replay mainnet reorganisation).1 ∧
    ∀ committed ∈ accepted (replay mainnet reorganisation).1,
      ∃ step ∈ (replay mainnet reorganisation).1, ∃ initial,
        step.request.instruction.initial? = some initial ∧ Costs mainnet initial committed := by
  refine ⟨of_decide_eq_true (by decide +kernel), ?_⟩
  apply costs_of_run (run_replay mainnet reorganisation)
  · exact soundHashes_reorganisation.mono occurring_reorganisation
  · rfl
  · exact leavesRoom_reorganisation

end

end BtcRelay
