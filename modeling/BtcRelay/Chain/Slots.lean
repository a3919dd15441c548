import BtcRelay.Chain.Window

/-!
# Slots of the ring buffer

The slot of a height is its distance from the initial height modulo the capacity of the ring
buffer, as long as the start of the buffer only moves by whole capacities. It does because no
handler stores a commitment for a height that skips one: each call of `store_block_commitment`
comes after those for the preceding heights down to a base that was within the buffer.

Reading the ring buffer is another matter: `get_commitment` subtracts the capacity from the
height of the tip, which a relay that starts below that height can never do.
-/

namespace BtcRelay

open Exec CircularBuffer History

/-- The slots of the ring buffer are counted from the initial height. -/
structure SlotsFrom (initialHeight : UInt32) (main : MainState) : Prop where
  aligned : main.startHeight.toNat % 250 = initialHeight.toNat % 250
  position : ∀ height : UInt32, main.startHeight.toNat < height.toNat + 250 →
    height.toNat ≤ main.startHeight.toNat + 250 → ∃ slot : ℕ,
      main.getPosition height = .ok slot ∧
      (slot : ℤ) = ((height.toNat : ℤ) - initialHeight.toNat) % 250
  distinct : ∀ height other : UInt32, main.startHeight.toNat < height.toNat + 250 →
    other.toNat ≤ main.startHeight.toNat + 250 → height < other →
    other.toNat < height.toNat + 250 → main.getPosition height ≠ main.getPosition other

/-- The calls of `store_block_commitment` on the main state that an instruction makes, each with
the main state that it is made on and the height that is passed. A submission loop stores the
header after those handled so far; the copy of a fork stores the one after those copied so far.
A call counts whether or not the instruction succeeds in the end. -/
inductive StoreCall (rt : Runtime) (ledger : Ledger) (request : Request) :
    MainState → UInt32 → Prop
  | extend {main : MainState} {data handled : List BlockHeader} {header : BlockHeader}
      {base : CommittedBlockHeader} {progress : Progress MainState} {height : UInt32}
      (instruction : request.instruction = .submitBlockHeaders data base)
      (present : ledger.mainState = some main)
      (required : requireHeaders request.toContext data = .ok ())
      (committed : main.getCommitment main.blockHeight = .ok (base.getCommitHash rt))
      (pending : handled ++ [header] <+: data)
      (handles : submitHeaders rt request.toContext storeMain .storeHeader handled base
        main.blockHeight main = .ok progress)
      (next : add32 progress.blockHeight 1 = .ok height) :
      StoreCall rt ledger request progress.account height
  | shortFork {main : MainState} {data handled : List BlockHeader} {header : BlockHeader}
      {base : CommittedBlockHeader} {progress : Progress MainState} {height : UInt32}
      (instruction : request.instruction = .submitShortForkHeaders data base)
      (present : ledger.mainState = some main)
      (required : requireHeaders request.toContext data = .ok ())
      (committed : main.getCommitment base.blockheight = .ok (base.getCommitHash rt))
      (pending : handled ++ [header] <+: data)
      (handles : submitHeaders rt request.toContext storeMain (.storeFork main.forkCounter)
        handled base base.blockheight main = .ok progress)
      (next : add32 progress.blockHeight 1 = .ok height) :
      StoreCall rt ledger request progress.account height
  | copy {main opened reached : MainState} {loaded forkState : ForkState}
      {data : List BlockHeader} {base : CommittedBlockHeader} {forkId : UInt64} {init : Bool}
      {last : Progress ForkState} {copied first height : UInt32}
      (instruction : request.instruction = .submitForkHeaders data base forkId init)
      (present : ledger.mainState = some main)
      (required : requireHeaders request.toContext data = .ok ())
      (loads : loadFork (ledger.forkState forkId request.signer) init = .ok loaded)
      (initialized : init = decide (loaded.initialized = 0))
      (opens : openFork rt main loaded base forkId = .ok (opened, forkState))
      (handles : submitHeaders rt request.toContext
        (fun forkState _ => forkState.storeBlockCommitment) (.storeFork forkId) data base
        base.blockheight forkState = .ok last)
      (heavier : gtArr last.lastCommitedHeader.chainWork opened.chainWork = true)
      (pending : copied < last.account.length)
      (copies : copyCommitments opened { last.account with length := copied } = .ok reached)
      (start : add32 last.account.startHeight 1 = .ok first)
      (next : add32 first copied = .ok height) : StoreCall rt ledger request reached height

/-- Along a run the slots are those counted from the initial height, and no call of
`store_block_commitment` skips a height. -/
structure SlotAssignment (rt : Runtime) (initialHeight : UInt32)
    (known : Set CommittedBlockHeader) (steps : List RelayStep) (ledger : Ledger)
    (main : MainState) : Prop where
  slots : SlotsFrom initialHeight main
  inside : main.blockHeight.toNat ≤ main.startHeight.toNat + 249
  increasing : ∀ step ∈ steps, ∀ before after, step.before.mainState = some before →
    step.after.mainState = some after → before.startHeight ≤ after.startHeight
  calls : ∀ request reached height,
    (∀ committed, request.instruction.commitedHeader? = some committed → committed ∈ known) →
    StoreCall rt ledger request reached height →
    SlotsFrom initialHeight reached ∧ main.startHeight ≤ reached.startHeight ∧
      height.toNat ≤ reached.startHeight.toNat + 250
  clamped : ∀ request reached height,
    (∀ committed, request.instruction.commitedHeader? = some committed → committed ∈ known) →
    StoreCall rt ledger request reached height →
    reached.startHeight.toNat + 250 ≤ height.toNat →
    height.toNat = reached.startHeight.toNat + 250

/-- The ring buffer answers for every height. The checks that compare a committed header with it
end in a verdict for every header up to the tip. -/
structure RingTotal (rt : Runtime) (main : MainState) : Prop where
  position : ∀ height, ∃ slot, main.getPosition height = .ok slot
  commitment : ∀ height, ∃ commitment, main.getCommitment height = .ok commitment
  store : ∀ height commitment, ∃ result,
    main.storeBlockCommitment height commitment = .ok result
  confirmed : main.blockHeight.toNat + 1 < 2 ^ 32 → ∀ confirmations committed,
    committed.blockheight ≤ main.blockHeight →
    requireConfirmed rt main confirmations committed ≠ Exec.abort

section

variable {rt : Runtime} {steps : List RelayStep} {ledger : Ledger} {request : Request}
  {main reached : MainState} {initialHeight height : UInt32} {known : Set CommittedBlockHeader}

theorem slotsFrom_of_aligned
    (aligned : main.startHeight.toNat % 250 = initialHeight.toNat % 250) :
    SlotsFrom initialHeight main := by
  have position : ∀ height : UInt32, main.startHeight.toNat < height.toNat + 250 →
      height.toNat ≤ main.startHeight.toNat + 250 → ∃ slot : ℕ,
        main.getPosition height = .ok slot ∧
        (slot : ℤ) = ((height.toNat : ℤ) - initialHeight.toNat) % 250 := by
    intro height recent near
    refine ⟨_, getPosition_eq main height, ?_⟩
    by_cases past : main.startHeight.toNat + 250 ≤ height.toNat
    · -- the clamp to slot 0 is right for the one height that is reached
      rw [if_pos past]
      omega
    · rw [if_neg past, if_neg (by omega), Buffer.slotOf]
      split
      · omega
      · omega
  refine ⟨aligned, position, ?_⟩
  intro height other recent near before close same
  have ordered := UInt32.lt_iff_toNat_lt.mp before
  rcases position height recent (by omega) with ⟨slot, slotIs, slotEq⟩
  rcases position other (by omega) near with ⟨otherSlot, otherIs, otherEq⟩
  rw [slotIs, otherIs, Except.ok.injEq] at same
  omega

theorem Advances.startHeight_mod {next : MainState} {base tip : CommittedBlockHeader}
    {blocks : List CommittedBlockHeader} (advances : Advances rt main base blocks tip next) :
    next.startHeight.toNat % 250 = main.startHeight.toNat % 250 := by
  rw [advances.startHeight_eq]
  exact Buffer.start_writeAll_mod advances.near

theorem StoreStep.startHeight_le {headers : Set CommittedBlockHeader} {earlier later : MainState}
    (moves : StoreStep rt headers step) (present : step.before.mainState = some earlier)
    (updated : step.after.mainState = some later) : earlier.startHeight ≤ later.startHeight := by
  cases moves with
  | created _ absent =>
      rw [absent] at present
      cases present
  | unmoved _ main_eq =>
      rcases main_eq later updated with ⟨main, here, same⟩
      cases here.symm.trans present
      rw [same]
      exact UInt32.le_refl _
  | moved here moved _ _ advances =>
      cases here.symm.trans present
      cases moved.symm.trans updated
      exact UInt32.le_iff_toNat_le.mpr advances.startHeight_le

theorem StoreStep.startHeight_mod {headers : Set CommittedBlockHeader} {later : MainState}
    (moves : StoreStep rt headers step)
    (starts : ∀ initial, step.request.instruction.initial? = some initial →
      initial.blockheight = initialHeight)
    (aligned : ∀ main, step.before.mainState = some main →
      main.startHeight.toNat % 250 = initialHeight.toNat % 250)
    (updated : step.after.mainState = some later) :
    later.startHeight.toNat % 250 = initialHeight.toNat % 250 := by
  cases moves with
  | created instruction absent moved =>
      cases moved.symm.trans updated
      have at_height := starts _ (by rw [instruction]; rfl)
      rw [← at_height]
      rfl
  | unmoved _ main_eq =>
      rcases main_eq later updated with ⟨main, present, same⟩
      rw [same]
      exact aligned main present
  | moved present moved _ _ advances =>
      cases moved.symm.trans updated
      rw [advances.startHeight_mod]
      exact aligned _ present

/-- The start of the ring buffer moves by whole capacities, and only forwards. -/
theorem startHeight_of_run (run : RelayRun rt steps ledger)
    (sound : SoundHashes rt (occurring steps)) (starts : StartsAt initialHeight steps) :
    (∀ main, ledger.mainState = some main →
      main.startHeight.toNat % 250 = initialHeight.toNat % 250) ∧
    ∀ step ∈ steps, ∀ before after, step.before.mainState = some before →
      step.after.mainState = some after → before.startHeight ≤ after.startHeight := by
  induction run with
  | start fresh =>
      refine ⟨?_, ?_⟩
      · intro main present
        rw [fresh.mainState] at present
        cases present
      · intro step member
        cases member
  | @step steps before after request output run success ih =>
      have suffix := List.suffix_cons (⟨before, request, after, output⟩ : RelayStep) steps
      rcases ih (sound.mono (occurring_mono suffix))
        (fun step member => starts step (List.mem_cons_of_mem _ member)) with
        ⟨aligned, increasing⟩
      have moves := storeStep_of_run (.step run success) sound
      refine ⟨?_, ?_⟩
      · intro main updated
        exact moves.startHeight_mod (starts _ List.mem_cons_self) aligned updated
      · intro step member earlier later present updated
        rcases List.mem_cons.mp member with rfl | old
        · exact moves.startHeight_le present updated
        · exact increasing step old earlier later present updated

theorem buffer_of_submitHeaders {ctx : Context}
    {event : Bytes32 → Bytes32 → CommittedBlockHeader → Event} {handled : List BlockHeader}
    {base : CommittedBlockHeader} {progress : Progress MainState}
    (handles : submitHeaders rt ctx storeMain event handled base height main = .ok progress) :
    ∃ entries, progress.account.buffer = main.buffer.writeAll height.toNat entries ∧
      progress.blockHeight.toNat = height.toNat + entries.length := by
  rcases submitHeaders_eq_ok_iff.mp handles with ⟨children, stored, _, storage, rfl⟩
  rcases storeAll_storeMain_spec storage with ⟨_, buffer, heights⟩
  refine ⟨children.map (CommittedBlockHeader.getCommitHash rt), buffer, ?_⟩
  rw [List.length_map]
  exact heights

/-- A call of `store_block_commitment` comes after writes for the heights before it, from the tip,
from the block that the caller supplied or from the base of a fork account. -/
theorem exists_writeAll_of_storeCall (call : StoreCall rt ledger request reached height)
    (present : ledger.mainState = some main) :
    ∃ base entries, reached.buffer = main.buffer.writeAll base entries ∧
      height.toNat = base + entries.length + 1 ∧
      (base = main.blockHeight.toNat ∨
        (∃ committed, request.instruction.commitedHeader? = some committed ∧
          main.getCommitment committed.blockheight = .ok (committed.getCommitHash rt) ∧
          base = committed.blockheight.toNat) ∨
        ∃ forkId forkState, ledger.forkState forkId request.signer = some forkState ∧
          base = forkState.startHeight.toNat) := by
  have one : UInt32.toNat 1 = 1 := rfl
  cases call with
  | extend instruction here required committed pending handles next =>
      cases here.symm.trans present
      rcases buffer_of_submitHeaders handles with ⟨entries, buffer, heights⟩
      rw [add32_eq_ok_iff, heights, one] at next
      exact ⟨_, entries, buffer, next, Or.inl rfl⟩
  | shortFork instruction here required committed pending handles next =>
      cases here.symm.trans present
      rcases buffer_of_submitHeaders handles with ⟨entries, buffer, heights⟩
      rw [add32_eq_ok_iff, heights, one] at next
      refine ⟨_, entries, buffer, next, Or.inr (Or.inl ⟨_, ?_, committed, rfl⟩)⟩
      rw [instruction]
      rfl
  | @copy _ opened _ loaded forkState data base forkId init last copied first _ instruction here
      required loads initialized opens handles heavier pending copies start next =>
      cases here.symm.trans present
      rcases submitHeaders_eq_ok_iff.mp handles with ⟨children, ⟨filled, _⟩, accepted, storage, rfl⟩
      rcases batch_of_accepted required accepted with ⟨tip, batch⟩
      rcases ForkState.storeAll_spec storage with ⟨fields, _, _, bound, _⟩
      rcases copyCommitments_spec copies with ⟨_, buffer⟩
      have room := bound batch.ne_nil
      simp only [Progress.advance, UInt32.lt_iff_toNat_lt] at pending buffer start
      have startHeight : filled.startHeight = forkState.startHeight := by rw [fields]
      have stored : (ForkState.stored { filled with length := copied }).length =
          copied.toNat := by
        rw [ForkState.stored, List.length_take, List.Vector.toList_length]
        simp only [PRUNING_FACTOR]
        omega
      rw [add32_eq_ok_iff, one] at start
      rw [add32_eq_ok_iff, start] at next
      refine ⟨filled.startHeight.toNat, ForkState.stored { filled with length := copied }, ?_, ?_,
        Or.inr ?_⟩
      · rw [buffer]
        cases forkOpens_of_openFork loads initialized opens with
        | opened => rfl
        | continued => rfl
      · rw [stored]
        omega
      · rw [startHeight]
        cases forkOpens_of_openFork loads initialized opens with
        | opened _ absent _ _ committed =>
            refine Or.inl ⟨base, ?_, committed, rfl⟩
            rw [instruction]
            rfl
        | continued _ found => exact Or.inr ⟨forkId, forkState, found, rfl⟩

/-- No call of `store_block_commitment` skips a height. -/
theorem near_of_storeCall (run : RelayRun rt steps ledger) (sound : SoundHashes rt known)
    (occurs : occurring steps ⊆ known)
    (supplied : ∀ committed, request.instruction.commitedHeader? = some committed →
      committed ∈ known)
    (present : ledger.mainState = some main)
    (call : StoreCall rt ledger request reached height) :
    main.startHeight ≤ reached.startHeight ∧
      reached.startHeight.toNat % 250 = main.startHeight.toNat % 250 ∧
      height.toNat ≤ reached.startHeight.toNat + 250 := by
  have invariant := chainInvariant_of_run run (sound.mono occurs)
  have mainInvariant := invariant.main main present
  have included : { c | c ∈ accepted steps } ⊆ known := fun _ member => occurs (Or.inl member)
  have inside := mainInvariant.inside
  rcases exists_writeAll_of_storeCall call present with
    ⟨base, entries, buffer, heights, source⟩
  have near : base < main.buffer.start + 250 := by
    rcases source with rfl | ⟨committed, named, commitment, rfl⟩ | ⟨forkId, forkState, found, rfl⟩
    · exact inside
    · have upTo := (mainInvariant.of_getCommitment sound included (supplied committed named)
        commitment).2.1
      exact lt_of_le_of_lt upTo inside
    · rcases invariant.forks main forkId _ forkState present found with ⟨_, _, fork, _⟩
      rw [fork.startHeight]
      exact fork.near
  have start : reached.startHeight.toNat = (main.buffer.writeAll base entries).start := by
    rw [← buffer]
    rfl
  refine ⟨?_, ?_, ?_⟩
  · have earlier : main.startHeight.toNat = main.buffer.start := rfl
    rw [UInt32.le_iff_toNat_le, start, earlier]
    exact Buffer.start_le_start_writeAll
  · rw [start]
    exact Buffer.start_writeAll_mod near
  · have bound : base + entries.length < (main.buffer.writeAll base entries).start + 250 :=
      Buffer.lt_start_writeAll near
    rw [start]
    omega

/-- In every state that a run reaches, the slots are counted from the initial height, and every
call of `store_block_commitment` is for a height at most one capacity past the start. -/
theorem slotAssignment_of_run (run : RelayRun rt steps ledger) (sound : SoundHashes rt known)
    (occurs : occurring steps ⊆ known) (starts : StartsAt initialHeight steps)
    (present : ledger.mainState = some main) :
    SlotAssignment rt initialHeight known steps ledger main := by
  rcases startHeight_of_run run (sound.mono occurs) starts with ⟨aligned, increasing⟩
  have inside := ((chainInvariant_of_run run (sound.mono occurs)).main main present).inside
  refine ⟨slotsFrom_of_aligned (aligned main present), by omega, increasing, ?_, ?_⟩
  · intro request reached height supplied call
    rcases near_of_storeCall run sound occurs supplied present call with ⟨later, same, near⟩
    exact ⟨slotsFrom_of_aligned (same.trans (aligned main present)), later, near⟩
  · intro request reached height supplied call past
    have near := (near_of_storeCall run sound occurs supplied present call).2.2
    omega

theorem exists_initial_of_run (run : RelayRun rt steps ledger)
    (starts : StartsAt initialHeight steps) (present : ledger.mainState.isSome = true) :
    ∃ initial ∈ accepted steps, initial.blockheight = initialHeight := by
  induction run with
  | start fresh =>
      rw [fresh.mainState] at present
      cases present
  | @step steps before after request output run success ih =>
      have suffix := List.suffix_cons (⟨before, request, after, output⟩ : RelayStep) steps
      have earlier (started : before.mainState.isSome = true) :
          ∃ initial ∈ accepted ({ before, request, after, output } :: steps),
            initial.blockheight = initialHeight := by
        rcases ih (fun step member => starts step (List.mem_cons_of_mem _ member)) started with
          ⟨initial, member, at_height⟩
        exact ⟨initial, accepted_mono suffix member, at_height⟩
      have moves := chainStep_of_process success
      generalize acceptedEq : output.filterMap Event.header? = children at moves
      cases moves with
      | created instruction =>
          refine ⟨_, ?_, starts _ List.mem_cons_self _ (by rw [instruction]; rfl)⟩
          rw [accepted_cons, acceptedEq]
          exact List.mem_cons_self
      | extend _ here => exact earlier (by rw [here]; rfl)
      | shortFork _ here => exact earlier (by rw [here]; rfl)
      | fork _ here => exact earlier (by rw [here]; rfl)
      | close _ unchanged =>
          rw [unchanged] at present
          exact earlier present
      | idle _ unchanged =>
          rw [unchanged] at present
          exact earlier present

/-- The relay is past the first 250 heights exactly if it was initialized there. -/
theorem high_iff_of_run (run : RelayRun rt steps ledger)
    (sound : SoundHashes rt (occurring steps)) (starts : StartsAt initialHeight steps)
    (present : ledger.mainState = some main) :
    250 ≤ main.blockHeight.toNat ↔ 250 ≤ initialHeight.toNat := by
  constructor
  · intro high
    rcases exists_initial_of_run run starts (by rw [present]; rfl) with
      ⟨initial, member, at_height⟩
    rw [← at_height]
    exact ((chainInvariant_of_run run sound).main main present).high high initial member
  · intro high
    exact high_of_run run sound starts high present

theorem exists_getCommitment_iff (inside : main.blockHeight.toNat < main.startHeight.toNat + 250) :
    (∀ height, ∃ commitment, main.getCommitment height = .ok commitment) ↔
      250 ≤ main.blockHeight.toNat := by
  constructor
  · intro total
    rcases total main.blockHeight with ⟨commitment, committed⟩
    by_contra low
    rw [getCommitment_eq inside, if_neg (lt_irrefl _), if_pos (not_le.mp low)] at committed
    exact abort_ne_ok committed
  · intro high height
    rw [getCommitment_eq inside]
    split
    · exact ⟨_, rfl⟩
    · rw [if_neg (not_lt.mpr high)]
      split
      · exact ⟨_, rfl⟩
      · exact ⟨_, rfl⟩

/-- Storing counts the commitment, unless its height has fallen out of the buffer. -/
theorem exists_storeBlockCommitment_iff {commitment : Bytes32} :
    (∃ result, main.storeBlockCommitment height commitment = .ok result) ↔
      height.toNat + 250 ≤ main.startHeight.toNat ∨ main.totalBlocks.toNat + 1 < 2 ^ 32 := by
  have one : UInt32.toNat 1 = 1 := rfl
  have counts : (∃ total, add32 main.totalBlocks 1 = .ok total) ↔
      main.totalBlocks.toNat + 1 < 2 ^ 32 := by
    simp only [add32, one]
    split
    · rename_i fits
      exact iff_of_true ⟨_, rfl⟩ fits
    · rename_i overflows
      refine iff_of_false ?_ overflows
      rintro ⟨total, counted⟩
      exact abort_ne_ok counted
  by_cases fallen : height.toNat + 250 ≤ main.startHeight.toNat
  · have position : main.getPosition height = .ok PRUNING_FACTOR := by
      rw [getPosition_eq, if_neg (by omega), if_pos fallen]
    simp only [MainState.storeBlockCommitment, position, ok_bind, if_true]
    exact iff_of_true ⟨_, rfl⟩ (Or.inl fallen)
  · have slotted : ∃ slot, slot < PRUNING_FACTOR ∧ main.getPosition height = .ok slot := by
      refine ⟨_, ?_, getPosition_eq main height⟩
      simp only [if_neg fallen, Buffer.slotOf, PRUNING_FACTOR]
      split
      · omega
      · split
        · omega
        · omega
    rcases slotted with ⟨slot, inRange, position⟩
    simp only [MainState.storeBlockCommitment, position, ok_bind, if_neg inRange.ne,
      update_of_lt _ inRange, or_iff_right fallen, ← counts]
    constructor
    · rintro ⟨result, run⟩
      rcases bind_eq_ok_iff.mp run with ⟨total, counted, _⟩
      exact ⟨total, counted⟩
    · rintro ⟨total, counted⟩
      rw [counted]
      exact ⟨_, rfl⟩

/-- Below the largest height, a check on a header up to the tip aborts only where the commitment
of its height cannot be read. -/
theorem requireConfirmed_ne_abort
    (total : ∀ height, ∃ commitment, main.getCommitment height = .ok commitment)
    (below : main.blockHeight.toNat + 1 < 2 ^ 32) {confirmations : UInt32}
    {committed : CommittedBlockHeader} (upTo : committed.blockheight ≤ main.blockHeight) :
    requireConfirmed rt main confirmations committed ≠ Exec.abort := by
  have one : UInt32.toNat 1 = 1 := rfl
  have ordered := UInt32.le_iff_toNat_le.mp upTo
  have difference : sub32 main.blockHeight committed.blockheight =
      .ok (main.blockHeight - committed.blockheight) := by
    simp [sub32, upTo]
  have distance := UInt32.toNat_sub_of_le _ _ upTo
  have counted : add32 (main.blockHeight - committed.blockheight) 1 =
      .ok (main.blockHeight - committed.blockheight + 1) := by
    simp only [add32, one, distance]
    rw [if_pos (by omega)]
  rcases total committed.blockheight with ⟨commitment, read⟩
  simp only [requireConfirmed, difference, counted, read, ok_bind, require, abort]
  split
  · simp only [ok_bind]
    split
    · simp
    · simp
  · simp

/-- The ring buffer never aborts exactly while it was initialized at height 250 or above and has
counted fewer commitments than a `u32` holds; the same count decides each store of a loop. -/
theorem ringTotal_iff_of_run (run : RelayRun rt steps ledger)
    (sound : SoundHashes rt (occurring steps)) (starts : StartsAt initialHeight steps)
    (present : ledger.mainState = some main) :
    (RingTotal rt main ↔ 250 ≤ initialHeight.toNat ∧ main.totalBlocks.toNat + 1 < 2 ^ 32) ∧
    ∀ request reached height commitment, StoreCall rt ledger request reached height →
      ((∃ result, reached.storeBlockCommitment height commitment = .ok result) ↔
        height.toNat + 250 ≤ reached.startHeight.toNat ∨
          reached.totalBlocks.toNat + 1 < 2 ^ 32) := by
  have inside := ((chainInvariant_of_run run sound).main main present).inside
  have reads := exists_getCommitment_iff inside
  refine ⟨?_, fun _ _ _ _ _ => exists_storeBlockCommitment_iff⟩
  rw [← high_iff_of_run run sound starts present]
  constructor
  · intro total
    refine ⟨reads.mp total.commitment, ?_⟩
    rcases exists_storeBlockCommitment_iff.mp (total.store main.startHeight emptyArray) with
      fallen | room
    · omega
    · exact room
  · rintro ⟨high, room⟩
    have commitment := reads.mpr high
    exact {
      position := fun height => ⟨_, getPosition_eq main height⟩
      commitment
      store := fun height commitment => exists_storeBlockCommitment_iff.mpr (Or.inr room)
      confirmed := fun below _ _ upTo => requireConfirmed_ne_abort commitment below upTo }

end

section

open Sample

theorem slotAssignment_reorganisation :
    SlotAssignment mainnet 1000 { committed | committed ∈ [start, main1, short1, short2] }
      (replay mainnet reorganisation).1 (replay mainnet reorganisation).2
      (mainStateAfter mainnet reorganisation) := by
  apply slotAssignment_of_run (run_replay mainnet reorganisation)
  · exact soundHashes_reorganisation
  · exact occurring_reorganisation
  · exact startsAt_reorganisation
  · exact mainState_reorganisation

theorem ringTotal_reorganisation :
    RingTotal mainnet (mainStateAfter mainnet reorganisation) := by
  have sound := soundHashes_reorganisation.mono occurring_reorganisation
  apply (ringTotal_iff_of_run (run_replay mainnet reorganisation) sound
    startsAt_reorganisation mainState_reorganisation).1.mpr
  refine ⟨by decide, ?_⟩
  decide +kernel

/-- The first block, at a height before the ring buffer can be read. -/
def lowStart : CommittedBlockHeader := { start with blockheight := 100 }

def beginLow (rt : Runtime) : Request :=
  request rt [startHeader] (.initializeRelay lowStart.header lowStart.blockheight
    lowStart.chainWork lowStart.lastDiffAdjustment lowStart.prevBlockTimestamps)

/-- A relay initialized at a low height aborts on the commitment check of the next block. -/
theorem not_ringTotal_low :
    RelayRun mainnet (replay mainnet [beginLow mainnet]).1
        (replay mainnet [beginLow mainnet]).2 ∧
      SoundHashes mainnet (occurring (replay mainnet [beginLow mainnet]).1) ∧
      StartsAt 100 (replay mainnet [beginLow mainnet]).1 ∧
      (replay mainnet [beginLow mainnet]).2.mainState =
        some (mainStateAfter mainnet [beginLow mainnet]) ∧
      ¬RingTotal mainnet (mainStateAfter mainnet [beginLow mainnet]) ∧
      submitBlockHeaders mainnet (extend mainnet [main1Header] lowStart).toContext
        (mainStateAfter mainnet [beginLow mainnet]) [main1Header] lowStart =
          .error .abort := by
  have checked : hashesChecked mainnet [lowStart] (replay mainnet [beginLow mainnet]).1 = true ∧
      ((replay mainnet [beginLow mainnet]).1.all fun step =>
        step.request.instruction.initial?.all fun initial => initial.blockheight = 100) = true ∧
      (replay mainnet [beginLow mainnet]).2.mainState.isSome = true ∧
      (mainStateAfter mainnet [beginLow mainnet]).getCommitment 100 = .error .abort ∧
      submitBlockHeaders mainnet (extend mainnet [main1Header] lowStart).toContext
        (mainStateAfter mainnet [beginLow mainnet]) [main1Header] lowStart = .error .abort :=
    of_decide_eq_true (by decide +kernel)
  rcases checked with ⟨hashes, starts, started, unread, aborts⟩
  refine ⟨run_replay mainnet _, ?_, startsAt_of_all starts, mainState_replay started, ?_, aborts⟩
  · exact (soundHashes_of_hashesChecked hashes).mono (occurring_subset_of_hashesChecked hashes)
  · intro total
    rcases total.commitment 100 with ⟨commitment, read⟩
    rw [unread] at read
    cases read

end

end BtcRelay
