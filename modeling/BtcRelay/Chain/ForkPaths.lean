import BtcRelay.Chain.Batching
import BtcRelay.Chain.ForkIds
import BtcRelay.Chain.ForkIntegrity

/-!
# The two ways of submitting a fork

A fork can be submitted in one instruction, which writes to the ring buffer as it goes, or
in several ones, which collect the commitments in a fork account until the fork has more
work than the main chain and then copy them. Where the fork gets ahead with its last
batch only, both ways end in the same ledger.
-/

namespace BtcRelay

open Exec BigEndian

/-- Submits a fork in batches, each on top of the last block of the one before. -/
def submitBatches (rt : Runtime) (signer : Pubkey) (unixTimestamp : ℤ) (forkId : UInt64) :
    Ledger → Bool → CommittedBlockHeader → List (List BlockHeader) → Exec Ledger
  | ledger, _, _, [] => .ok ledger
  | ledger, init, base, data :: batches => do
      let (ledger, _) ← process rt ledger (submission rt signer unixTimestamp data
        (.submitForkHeaders data base forkId init))
      submitBatches rt signer unixTimestamp forkId ledger false (base.commitAll data) batches

/-- A submission to a fork account finds the main state and the account as given. -/
structure OpensFork (rt : Runtime) (main : MainState) (account : Option ForkState)
    (base : CommittedBlockHeader) (forkId : UInt64) (init : Bool) (opened : MainState)
    (forkState : ForkState) : Prop where
  opens : ∃ loaded, loadFork account init = .ok loaded ∧
    init = decide (loaded.initialized = 0) ∧
    openFork rt main loaded base forkId = .ok (opened, forkState)

/-- A fork account holds the commitments of some blocks from a height on. -/
structure ForkStores (rt : Runtime) (forkState : ForkState) (startHeight : UInt32)
    (blocks : List CommittedBlockHeader) : Prop where
  initialized : forkState.initialized ≠ 0
  startHeight : forkState.startHeight = startHeight
  stored : forkState.stored = blocks.map (CommittedBlockHeader.getCommitHash rt)
  length : forkState.length.toNat = blocks.length

section

variable {rt : Runtime} {unixTimestamp : ℤ} {signer : Pubkey} {forkId : UInt64} {init : Bool}
  {main opened next : MainState} {account after : Option ForkState}
  {forkState filled : ForkState} {base : CommittedBlockHeader} {data : List BlockHeader}
  {children blocks : List CommittedBlockHeader} {startHeight height : UInt32}

/-- The copy of a fork stores the commitments of its blocks one after the other. -/
theorem copyCommitments_eq (stores : ForkStores rt forkState startHeight blocks)
    (heights : startHeight.toNat + blocks.length < 2 ^ 32) (room : blocks.length ≤ 250) :
    copyCommitments main forkState = (do
      let (ring, _) ← storeAll rt storeMain main startHeight blocks
      .ok ring) := by
  have one : UInt32.toNat 1 = 1 := rfl
  have prefixes : ∀ count ≤ blocks.length,
      (List.range count).foldlM (fun mainState i => do
        let first ← add32 forkState.startHeight 1
        let height ← add32 first (UInt32.ofNat i)
        let commitment ← index forkState.blockCommitments i
        storeMain mainState height commitment) main = (do
      let (ring, _) ← storeAll rt storeMain main startHeight (blocks.take count)
      .ok ring) := by
    intro count
    induction count with
    | zero =>
        intro _
        rfl
    | succ count ih =>
        intro bound
        have small : (UInt32.ofNat count).toNat = count :=
          UInt32.toNat_ofNat_of_lt' (by simp only [UInt32.size]; omega)
        have first : add32 forkState.startHeight 1 = .ok (startHeight + 1) := by
          rw [stores.startHeight]
          exact if_pos (by omega)
        have firstEq := add32_eq_ok_iff.mp first
        have found : index forkState.blockCommitments count =
            .ok (blocks[count].getCommitHash rt) := by
          apply index_of_stored
          rw [stores.stored, List.getElem?_map, List.getElem?_eq_getElem bound, Option.map_some]
        rw [List.range_succ, List.foldlM_append, ih (by omega), List.take_add_one,
          List.getElem?_eq_getElem bound, Option.toList_some, storeAll_append]
        cases stored : storeAll rt storeMain main startHeight (blocks.take count) with
        | error failure => rfl
        | ok result =>
            rcases result with ⟨ring, last⟩
            have counted := (storeAll_storeMain_spec stored).2.2
            rw [List.length_take, Nat.min_eq_left (by omega)] at counted
            have second : add32 (startHeight + 1) (UInt32.ofNat count) = .ok (last + 1) := by
              rw [stores.startHeight] at firstEq
              have added : add32 last 1 = .ok (last + 1) := if_pos (by omega)
              have addedEq := add32_eq_ok_iff.mp added
              rw [add32_eq_ok_iff]
              omega
            have added : add32 last 1 = .ok (last + 1) := if_pos (by omega)
            simp only [ok_bind, List.foldlM_cons, List.foldlM_nil, first, second, found, storeAll,
              added]
            cases storeMain ring (last + 1) (blocks[count].getCommitHash rt) with
            | error failure => rfl
            | ok final => rfl
  have whole := prefixes blocks.length (le_refl _)
  rw [List.take_length] at whole
  rw [copyCommitments, stores.length]
  exact whole

theorem exists_storeAll_forkState (room : forkState.length.toNat + blocks.length ≤ 250)
    (heights : height.toNat + blocks.length < 2 ^ 32) :
    ∃ result, storeAll rt (fun forkState _ => forkState.storeBlockCommitment) forkState height
      blocks = .ok result := by
  have one : UInt32.toNat 1 = 1 := rfl
  induction blocks generalizing forkState height with
  | nil => exact ⟨_, rfl⟩
  | cons block rest ih =>
      rw [List.length_cons] at room heights
      have inRange : forkState.length.toNat < PRUNING_FACTOR := by
        simp only [PRUNING_FACTOR]
        omega
      have counted : add32 forkState.length 1 = .ok (forkState.length + 1) := if_pos (by omega)
      have countedEq := add32_eq_ok_iff.mp counted
      have added : add32 height 1 = .ok (height + 1) := if_pos (by omega)
      have addedEq := add32_eq_ok_iff.mp added
      simp only [storeAll, added, ok_bind, ForkState.storeBlockCommitment, update_of_lt _ inRange,
        counted]
      apply ih
      · simp only
        omega
      · omega

theorem ForkStores.append (stores : ForkStores rt forkState startHeight blocks) {last : UInt32}
    (stored : storeAll rt (fun forkState _ => forkState.storeBlockCommitment) forkState height
      children = .ok (filled, last)) :
    ForkStores rt filled startHeight (blocks ++ children) ∧
      last.toNat = height.toNat + children.length := by
  rcases ForkState.storeAll_spec stored with ⟨fields, commitments, length, _, heights⟩
  refine ⟨⟨?_, ?_, ?_, ?_⟩, heights⟩
  · rw [fields]
    exact stores.initialized
  · rw [fields]
    exact stores.startHeight
  · rw [commitments, stores.stored, List.map_append]
  · rw [length, stores.length, List.length_append]

def ForkState.withTip (forkState : ForkState) (rt : Runtime) (tip : CommittedBlockHeader) :
    ForkState :=
  { forkState with
    tipBlockHash := tip.header.getBlockHash rt
    tipCommitHash := tip.getCommitHash rt }

/-- A submission to a fork account accepts its headers and stores them in the account; a fork that
is ahead of the main chain by then is copied, and the account closed. -/
theorem submitForkHeaders_submission_iff {instruction : Instruction} (nonempty : data ≠ [])
    (opens : OpensFork rt main account base forkId init opened forkState) :
    (∃ events, submitForkHeaders rt
        (submission rt signer unixTimestamp data instruction).toContext main account data base
        forkId init = .ok (next, after, events)) ↔
      ∃ children filled height, Accepted rt unixTimestamp base (indexed rt data) children ∧
        storeAll rt (fun forkState _ => forkState.storeBlockCommitment) forkState base.blockheight
          children = .ok (filled, height) ∧
        (value opened.chainWork < value (base.commitAll data).chainWork ∧
            (∃ copied, copyCommitments opened filled = .ok copied ∧
              next = copied.moveTo rt (base.commitAll data) height) ∧ after = none ∨
          ¬value opened.chainWork < value (base.commitAll data).chainWork ∧ next = opened ∧
            after = some (filled.withTip rt (base.commitAll data))) := by
  rcases opens.opens with ⟨loaded, loads, required, openEq⟩
  have checked : require (init = decide (loaded.initialized = 0)) .errInit = .ok () :=
    require_of_true _ required
  simp only [submitForkHeaders, requireHeaders_submission nonempty, loads, checked, openEq, ok_bind,
    bind_eq_ok_iff, submitHeaders_eq_ok_iff, zip_remainingAccounts]
  constructor
  · rintro ⟨events, _, ⟨children, ⟨filled, height⟩, accepted, stored, rfl⟩, rest⟩
    have last := accepted.getLastD_eq
    have some_last := accepted.getLast?_eq nonempty
    simp only [Progress.advance, last, List.getLastD_eq_getLast?, List.getLast?_map, some_last,
      Option.map_some, Option.getD_some, gtArr_iff] at rest
    refine ⟨children, filled, height, accepted, stored, ?_⟩
    split at rest
    · rename_i heavier
      simp only [bind_eq_ok_iff, Except.ok.injEq, Prod.mk.injEq] at rest
      rcases rest with ⟨copied, copies, rfl, rfl, _⟩
      exact Or.inl ⟨heavier, ⟨copied, copies, rfl⟩, rfl⟩
    · rename_i lighter
      simp only [Except.ok.injEq, Prod.mk.injEq] at rest
      rcases rest with ⟨rfl, rfl, _⟩
      exact Or.inr ⟨lighter, rfl, rfl⟩
  · rintro ⟨children, filled, height, accepted, stored, result⟩
    have last := accepted.getLastD_eq
    have some_last := accepted.getLast?_eq nonempty
    rcases result with ⟨heavier, ⟨copied, copies, rfl⟩, rfl⟩ | ⟨lighter, rfl, rfl⟩
    · refine ⟨children.map (headerEvent rt (.storeFork forkId)) ++
        [.chainReorg forkId filled.startHeight ((base.commitAll data).header.getBlockHash rt)
          ((base.commitAll data).getCommitHash rt)], _,
        ⟨children, (filled, height), accepted, stored, rfl⟩, ?_⟩
      simp only [Progress.advance, last, List.getLastD_eq_getLast?, List.getLast?_map, some_last,
        Option.map_some, Option.getD_some, gtArr_iff, if_pos heavier, copies, ok_bind]
      rfl
    · refine ⟨children.map (headerEvent rt (.storeFork forkId)), _,
        ⟨children, (filled, height), accepted, stored, rfl⟩, ?_⟩
      simp only [Progress.advance, last, List.getLastD_eq_getLast?, List.getLast?_map, some_last,
        Option.map_some, Option.getD_some, gtArr_iff, if_neg lighter]
      rfl

theorem process_submitForkHeaders_iff {ledger final : Ledger}
    (present : ledger.mainState = some main) :
    (∃ events, process rt ledger (submission rt signer unixTimestamp data
        (.submitForkHeaders data base forkId init)) = .ok (final, events)) ↔
      ∃ next after, (∃ events, submitForkHeaders rt (submission rt signer unixTimestamp data
          (.submitForkHeaders data base forkId init)).toContext main
          (ledger.forkState forkId signer) data base forkId init = .ok (next, after, events)) ∧
        final = { ledger.setFork forkId signer after with mainState := some next } := by
  simp only [process, submission, present, load, ok_bind, bind_eq_ok_iff, Except.ok.injEq,
    Prod.exists, Prod.mk.injEq]
  constructor
  · rintro ⟨_, next, after, events, submitted, rfl, rfl⟩
    exact ⟨next, after, ⟨events, submitted⟩, rfl⟩
  · rintro ⟨next, after, ⟨events, submitted⟩, rfl⟩
    exact ⟨events, next, after, events, submitted, rfl, rfl⟩

theorem Accepted.unique {submitted : List (BlockHeader × Pubkey)}
    {others : List CommittedBlockHeader}
    (accepted : Accepted rt unixTimestamp base submitted children)
    (other : Accepted rt unixTimestamp base submitted others) : children = others := by
  induction accepted generalizing others with
  | nil =>
      cases other
      rfl
  | @cons base child topic rest children checks link tail ih =>
      generalize submittedEq : (child.header, topic) :: rest = all at other
      cases other with
      | nil => cases submittedEq
      | @cons _ child' topic' rest' children' checks' link' tail' =>
          simp only [List.cons.injEq, Prod.mk.injEq] at submittedEq
          rcases submittedEq with ⟨⟨header, _⟩, rfl⟩
          have same : child = child' := by
            rw [checks.eq_commit, checks'.eq_commit, header]
          subst same
          rw [ih tail']

def Ledger.updateFork (ledger : Ledger) (forkId : UInt64) (signer : Pubkey)
    (account : Option ForkState) (main : MainState) : Ledger :=
  { ledger.setFork forkId signer account with mainState := some main }

@[simp]
theorem forkState_updateFork (ledger : Ledger) :
    (ledger.updateFork forkId signer account main).forkState forkId signer = account := by
  simp [Ledger.updateFork, Ledger.setFork]

@[simp]
theorem updateFork_updateFork (ledger : Ledger) :
    (ledger.updateFork forkId signer account main).updateFork forkId signer after next =
      ledger.updateFork forkId signer after next := by
  simp only [Ledger.updateFork, Ledger.setFork, Ledger.mk.injEq, true_and, and_true]
  funext id owner
  split
  · rfl
  · rfl

theorem accepted_append_iff {root : CommittedBlockHeader} {done : List BlockHeader}
    {earlier : List CommittedBlockHeader}
    (accepted : Accepted rt unixTimestamp root (indexed rt done) earlier) :
    Accepted rt unixTimestamp root (indexed rt (done ++ data)) children ↔
      ∃ later, children = earlier ++ later ∧
        Accepted rt unixTimestamp (root.commitAll done) (indexed rt data) later := by
  rw [indexed_append, Accepted.append_iff]
  constructor
  · rintro ⟨first, later, rfl, before, after⟩
    have same := before.unique accepted
    subst same
    rw [before.getLastD_eq] at after
    exact ⟨later, rfl, after⟩
  · rintro ⟨later, rfl, after⟩
    refine ⟨earlier, later, rfl, accepted, ?_⟩
    rw [accepted.getLastD_eq]
    exact after

theorem Accepted.height_commitAll
    (accepted : Accepted rt unixTimestamp base (indexed rt data) children) :
    (base.commitAll data).blockheight.toNat = base.blockheight.toNat + children.length := by
  rw [← accepted.getLastD_eq]
  exact height_getLastD_of_isChain accepted.isChain

/-- Whether accepted headers outweigh the main chain is decided by the work of the last one. -/
theorem Accepted.outweighs_iff
    (accepted : Accepted rt unixTimestamp base (indexed rt data) children) :
    outweighs main base data = true ↔
      value main.chainWork < value (base.commitAll data).chainWork := by
  have work := accepted.submittedWork
  have headers : children.map CommittedBlockHeader.header = data := by
    rw [accepted.map_header, indexed, List.map_map]
    exact List.map_id data
  rw [headers, accepted.getLastD_eq] at work
  rw [outweighs, work]
  exact gtArr_iff _ _

/-- Stored in a fork account and then copied, or stored in the ring buffer directly. -/
theorem copied_eq_ok_iff {root : CommittedBlockHeader} {done : List BlockHeader}
    {earlier : List CommittedBlockHeader} {copied : MainState}
    (stores : ForkStores rt forkState root.blockheight earlier)
    (before : Accepted rt unixTimestamp root (indexed rt done) earlier)
    (stored : storeAll rt (fun forkState _ => forkState.storeBlockCommitment) forkState
      (root.commitAll done).blockheight children = .ok (filled, height))
    (room : earlier.length + children.length ≤ 250) :
    copyCommitments main filled = .ok copied ↔
      storeAll rt storeMain main root.blockheight (earlier ++ children) = .ok (copied, height) := by
  rcases stores.append stored with ⟨fills, counted⟩
  have heights := before.height_commitAll
  have top := height.toNat_lt
  rw [copyCommitments_eq fills (by rw [List.length_append]; omega)
    (by rw [List.length_append]; omega)]
  simp only [bind_eq_ok_iff, Prod.exists, Except.ok.injEq]
  constructor
  · rintro ⟨ring, last, storedMain, rfl⟩
    have lastEq := (storeAll_storeMain_spec storedMain).2.2
    rw [List.length_append] at lastEq
    have same : last = height := by
      apply UInt32.toNat_inj.mp
      omega
    rw [← same]
    exact storedMain
  · intro storedMain
    exact ⟨copied, height, storedMain, rfl⟩

/-- What a fork that is submitted in batches leads to once it is adopted. -/
def AdoptsFork (rt : Runtime) (unixTimestamp : ℤ) (signer : Pubkey) (forkId : UInt64)
    (ledger : Ledger) (opened : MainState) (root : CommittedBlockHeader)
    (data : List BlockHeader) (final : Ledger) : Prop :=
  ∃ children ring height, Accepted rt unixTimestamp root (indexed rt data) children ∧
    storeAll rt storeMain opened root.blockheight children = .ok (ring, height) ∧
    value opened.chainWork < value (root.commitAll data).chainWork ∧
    final = ledger.updateFork forkId signer none (ring.moveTo rt (root.commitAll data) height)

theorem process_submitForkHeaders_adopts {ledger final : Ledger} {root : CommittedBlockHeader}
    {done : List BlockHeader} {earlier : List CommittedBlockHeader}
    (present : ledger.mainState = some main)
    (opens : OpensFork rt main (ledger.forkState forkId signer) (root.commitAll done) forkId init
      opened forkState)
    (stores : ForkStores rt forkState root.blockheight earlier)
    (before : Accepted rt unixTimestamp root (indexed rt done) earlier)
    (nonempty : data ≠ []) (room : earlier.length + data.length ≤ 250) :
    ((∃ events, process rt ledger (submission rt signer unixTimestamp data
        (.submitForkHeaders data (root.commitAll done) forkId init)) = .ok (final, events)) ∧
        final.forkState forkId signer = none) ↔
      AdoptsFork rt unixTimestamp signer forkId ledger opened root (done ++ data) final := by
  simp only [process_submitForkHeaders_iff present, submitForkHeaders_submission_iff nonempty opens,
    AdoptsFork, accepted_append_iff before, commitAll_append]
  constructor
  · rintro ⟨⟨next, after, ⟨children, filled, height, accepted, stored, result⟩, rfl⟩, closed⟩
    replace closed : after = none := (forkState_updateFork ledger).symm.trans closed
    rcases result with ⟨heavier, ⟨copied, copies, rfl⟩, rfl⟩ | ⟨_, _, rfl⟩
    · have lengths := accepted.length_indexed
      have storedMain := (copied_eq_ok_iff stores before stored (by omega)).mp copies
      exact ⟨earlier ++ children, copied, height, ⟨children, rfl, accepted⟩, storedMain, heavier,
        rfl⟩
    · cases closed
  · rintro ⟨_, ring, height, ⟨children, rfl, accepted⟩, storedMain, heavier, rfl⟩
    have lengths := accepted.length_indexed
    have heights := before.height_commitAll
    have top := (root.commitAll done).commitAll data |>.blockheight.toNat_lt
    rw [accepted.height_commitAll] at top
    rcases @exists_storeAll_forkState rt forkState children (root.commitAll done).blockheight
      (by rw [stores.length]; omega) top with ⟨⟨filled, last⟩, stored⟩
    have lastEq : last = height := by
      have counted := (storeAll_storeMain_spec storedMain).2.2
      have countedFork := (stores.append stored).2
      rw [List.length_append] at counted
      apply UInt32.toNat_inj.mp
      omega
    subst lastEq
    refine ⟨⟨ring.moveTo rt ((root.commitAll done).commitAll data) last, none,
      ⟨children, filled, last, accepted, stored, Or.inl ⟨heavier, ⟨ring, ?_, rfl⟩, rfl⟩⟩, rfl⟩, ?_⟩
    · exact (copied_eq_ok_iff stores before stored (by omega)).mpr storedMain
    · exact forkState_updateFork ledger

/-- A batch that does not get ahead of the main chain is kept in the fork account, from where the
next one continues. -/
theorem process_submitForkHeaders_keeps {ledger : Ledger} {root : CommittedBlockHeader}
    {done : List BlockHeader} {earlier : List CommittedBlockHeader}
    (present : ledger.mainState = some main)
    (opens : OpensFork rt main (ledger.forkState forkId signer) (root.commitAll done) forkId init
      opened forkState)
    (stores : ForkStores rt forkState root.blockheight earlier)
    (before : Accepted rt unixTimestamp root (indexed rt done) earlier)
    (accepted : Accepted rt unixTimestamp (root.commitAll done) (indexed rt data) children)
    (nonempty : data ≠ []) (room : earlier.length + data.length ≤ 250)
    (light : outweighs opened root (done ++ data) = false) :
    ∃ kept, ForkStores rt kept root.blockheight (earlier ++ children) ∧
      OpensFork rt opened (some kept) (root.commitAll (done ++ data)) forkId false opened kept ∧
      ∀ final, (∃ events, process rt ledger (submission rt signer unixTimestamp data
          (.submitForkHeaders data (root.commitAll done) forkId init)) = .ok (final, events)) ↔
        final = ledger.updateFork forkId signer (some kept) opened := by
  have lengths := accepted.length_indexed
  have heights := accepted.height_commitAll
  have top := ((root.commitAll done).commitAll data).blockheight.toNat_lt
  have lighter : ¬value opened.chainWork < value (root.commitAll (done ++ data)).chainWork := by
    have whole := (accepted_append_iff before).mpr ⟨children, rfl, accepted⟩
    rw [← whole.outweighs_iff, light]
    exact Bool.false_ne_true
  rcases @exists_storeAll_forkState rt forkState children (root.commitAll done).blockheight
    (by rw [stores.length]; omega) (by omega) with ⟨⟨filled, last⟩, stored⟩
  rcases stores.append stored with ⟨fills, _⟩
  refine ⟨filled.withTip rt (root.commitAll (done ++ data)),
    ⟨fills.initialized, fills.startHeight, fills.stored, fills.length⟩, ⟨_, rfl, ?_, ?_⟩, ?_⟩
  · exact (decide_eq_false fills.initialized).symm
  · have initialized : (filled.withTip rt (root.commitAll (done ++ data))).initialized ≠ 0 :=
      fills.initialized
    have same : (root.commitAll (done ++ data)).getCommitHash rt =
      (filled.withTip rt (root.commitAll (done ++ data))).tipCommitHash := rfl
    simp only [openFork, if_neg initialized, require_of_true _ same, ok_bind]
  · intro final
    simp only [process_submitForkHeaders_iff present,
      submitForkHeaders_submission_iff nonempty opens]
    rw [commitAll_append] at lighter ⊢
    constructor
    · rintro ⟨next, after, ⟨others, filled', height, accepted', stored', result⟩, rfl⟩
      have same := accepted'.unique accepted
      subst same
      cases stored.symm.trans stored'
      rcases result with ⟨heavier, _⟩ | ⟨_, rfl, rfl⟩
      · exact absurd heavier lighter
      · rfl
    · rintro rfl
      exact ⟨opened, _, ⟨children, filled, last, accepted, stored, Or.inr ⟨lighter, rfl, rfl⟩⟩, rfl⟩

theorem submitBatches_cons_iff {rest : List (List BlockHeader)} {ledger final : Ledger} :
    submitBatches rt signer unixTimestamp forkId ledger init base (data :: rest) = .ok final ↔
      ∃ between, (∃ events, process rt ledger (submission rt signer unixTimestamp data
          (.submitForkHeaders data base forkId init)) = .ok (between, events)) ∧
        submitBatches rt signer unixTimestamp forkId between false (base.commitAll data) rest =
          .ok final := by
  rw [submitBatches, bind_eq_ok_iff]
  constructor
  · rintro ⟨⟨between, events⟩, processed, remaining⟩
    exact ⟨between, ⟨events, processed⟩, remaining⟩
  · rintro ⟨between, ⟨events, processed⟩, remaining⟩
    exact ⟨⟨between, events⟩, processed, remaining⟩

theorem exists_accepted_of_process {ledger final : Ledger} (present : ledger.mainState = some main)
    (opens : OpensFork rt main (ledger.forkState forkId signer) base forkId init opened forkState)
    (nonempty : data ≠ [])
    (processed : ∃ events, process rt ledger (submission rt signer unixTimestamp data
      (.submitForkHeaders data base forkId init)) = .ok (final, events)) :
    ∃ children, Accepted rt unixTimestamp base (indexed rt data) children := by
  rcases (process_submitForkHeaders_iff present).mp processed with ⟨_, _, submitted, _⟩
  rcases (submitForkHeaders_submission_iff nonempty opens).mp submitted with
    ⟨children, _, _, accepted, _⟩
  exact ⟨children, accepted⟩

theorem AdoptsFork.exists_accepted {ledger final : Ledger} {root : CommittedBlockHeader}
    {done more : List BlockHeader} {earlier : List CommittedBlockHeader}
    (adopts : AdoptsFork rt unixTimestamp signer forkId ledger opened root
      (done ++ (data ++ more)) final)
    (before : Accepted rt unixTimestamp root (indexed rt done) earlier) :
    ∃ children, Accepted rt unixTimestamp (root.commitAll done) (indexed rt data) children := by
  rcases adopts with ⟨_, _, _, whole, _⟩
  rcases (accepted_append_iff before).mp whole with ⟨_, _, later⟩
  rw [indexed_append] at later
  rcases Accepted.append_iff.mp later with ⟨children, _, _, accepted, _⟩
  exact ⟨children, accepted⟩

/-- A fork submitted in batches of which only the last gets ahead of the main chain. -/
theorem submitBatches_adopts_iff {batches : List (List BlockHeader)} {ledger final : Ledger}
    {root : CommittedBlockHeader} {done : List BlockHeader} {earlier : List CommittedBlockHeader}
    (present : ledger.mainState = some main)
    (opens : OpensFork rt main (ledger.forkState forkId signer) (root.commitAll done) forkId init
      opened forkState)
    (stores : ForkStores rt forkState root.blockheight earlier)
    (before : Accepted rt unixTimestamp root (indexed rt done) earlier)
    (nonempty : batches ≠ []) (each : ∀ data ∈ batches, data ≠ [])
    (room : earlier.length + batches.flatten.length ≤ 250)
    (light : ∀ front back, batches = front ++ back → front ≠ [] → back ≠ [] →
      outweighs opened root (done ++ front.flatten) = false) :
    (submitBatches rt signer unixTimestamp forkId ledger init (root.commitAll done) batches =
        .ok final ∧ final.forkState forkId signer = none) ↔
      AdoptsFork rt unixTimestamp signer forkId ledger opened root (done ++ batches.flatten)
        final := by
  induction batches generalizing ledger main init forkState done earlier with
  | nil => exact absurd rfl nonempty
  | cons data rest ih =>
      have dataNonempty := each data List.mem_cons_self
      simp only [List.flatten_cons, List.length_append] at room
      cases rest with
      | nil =>
          have last := @process_submitForkHeaders_adopts rt unixTimestamp signer forkId init main
            opened forkState data ledger final root done earlier present opens stores before
            dataNonempty (by omega)
          rw [submitBatches_cons_iff]
          simp only [List.flatten_cons, List.flatten_nil, List.append_nil, ← last, submitBatches,
            Except.ok.injEq, exists_eq_right]
      | cons second rest =>
          have lightFirst : outweighs opened root (done ++ data) = false := by
            have first := light [data] (second :: rest) rfl (List.cons_ne_nil _ _)
              (List.cons_ne_nil _ _)
            rw [List.flatten_singleton] at first
            exact first
          have lightRest : ∀ front back, second :: rest = front ++ back → front ≠ [] → back ≠ [] →
              outweighs opened root ((done ++ data) ++ front.flatten) = false := by
            intro front back split _ backNonempty
            have longer := light (data :: front) back (congrArg (data :: ·) split)
              (List.cons_ne_nil _ _) backNonempty
            rw [List.flatten_cons, ← List.append_assoc] at longer
            exact longer
          -- what remains once the first batch has been kept
          have continues : ∀ {children},
              Accepted rt unixTimestamp (root.commitAll done) (indexed rt data) children →
              ∃ kept, (∀ between, (∃ events, process rt ledger (submission rt signer unixTimestamp
                    data (.submitForkHeaders data (root.commitAll done) forkId init)) =
                    .ok (between, events)) ↔
                  between = ledger.updateFork forkId signer (some kept) opened) ∧
                ((submitBatches rt signer unixTimestamp forkId
                      (ledger.updateFork forkId signer (some kept) opened) false
                      (root.commitAll (done ++ data)) (second :: rest) = .ok final ∧
                    final.forkState forkId signer = none) ↔
                  AdoptsFork rt unixTimestamp signer forkId ledger opened root
                    (done ++ (data ++ (second :: rest).flatten)) final) := by
            intro children accepted
            have lengths := accepted.length_indexed
            rcases process_submitForkHeaders_keeps present opens stores before accepted dataNonempty
              (by omega) lightFirst with ⟨kept, keptStores, keptOpens, processed⟩
            refine ⟨kept, processed, ?_⟩
            have adopts := @ih false opened kept
              (ledger.updateFork forkId signer (some kept) opened) (done ++ data)
              (earlier ++ children) rfl (by rw [forkState_updateFork]; exact keptOpens) keptStores
              ((accepted_append_iff before).mpr ⟨children, rfl, accepted⟩) (List.cons_ne_nil _ _)
              (fun batch member => each batch (List.mem_cons_of_mem _ member))
              (by rw [List.length_append]; omega) lightRest
            rw [adopts, List.append_assoc]
            simp only [AdoptsFork, updateFork_updateFork]
          rw [submitBatches_cons_iff, ← commitAll_append, List.flatten_cons]
          constructor
          · rintro ⟨⟨between, processed, remaining⟩, closed⟩
            rcases exists_accepted_of_process present opens dataNonempty processed with
              ⟨_, accepted⟩
            rcases continues accepted with ⟨kept, only, adopts⟩
            rw [(only between).mp processed] at remaining
            exact adopts.mp ⟨remaining, closed⟩
          · intro adopted
            rcases adopted.exists_accepted before with ⟨_, accepted⟩
            rcases continues accepted with ⟨kept, only, adopts⟩
            rcases adopts.mpr adopted with ⟨remaining, closed⟩
            exact ⟨⟨_, (only _).mpr rfl, remaining⟩, closed⟩

def MainState.countFork (main : MainState) (forkCounter : UInt64) : MainState :=
  { main with forkCounter }

theorem openFork_zeroed {counter : UInt64}
    (committed : main.getCommitment base.blockheight = .ok (base.getCommitHash rt))
    (counted : add64 main.forkCounter 1 = .ok counter) :
    openFork rt main .zeroed base main.forkCounter =
      .ok (main.countFork counter,
        { ForkState.zeroed with initialized := 1, startHeight := base.blockheight }) := by
  have initialized : ForkState.zeroed.initialized = 0 := rfl
  have readable : ({ main with forkCounter := counter } : MainState).getCommitment
    base.blockheight = .ok (base.getCommitHash rt) := committed
  simp only [openFork, if_pos initialized, counted, readable, ok_bind]
  rfl

/-- An account that is not there yet is opened under the current value of the counter. -/
theorem opensFork_of_absent {counter : UInt64}
    (committed : main.getCommitment base.blockheight = .ok (base.getCommitHash rt))
    (counted : add64 main.forkCounter 1 = .ok counter) :
    OpensFork rt main none base main.forkCounter true (main.countFork counter)
      { ForkState.zeroed with initialized := 1, startHeight := base.blockheight } :=
  ⟨ForkState.zeroed, rfl, rfl, openFork_zeroed committed counted⟩

theorem exists_counted_of_opens {ctx : Context} {events : List Event}
    (submitted : submitForkHeaders rt ctx main none data base main.forkCounter true =
      .ok (next, after, events)) : ∃ counter, add64 main.forkCounter 1 = .ok counter := by
  rcases submitForkHeaders_spec submitted with ⟨_, _, _, _, _, opens, _⟩
  cases opens with
  | opened _ _ _ counted => exact ⟨_, add64_eq_ok_iff.mpr counted⟩
  | continued continues => cases continues

theorem storeAll_countFork_iff {counter : UInt64} {ring : MainState} {last : UInt32} :
    storeAll rt storeMain (main.countFork counter) height children = .ok (ring, last) ↔
      ∃ stored, storeAll rt storeMain main height children = .ok (stored, last) ∧
        ring = stored.countFork counter := by
  have same : main.countFork counter = (main.countFork counter).withRing main := rfl
  rw [same, storeAll_withRing]
  simp only [bind_eq_ok_iff, Prod.exists, Except.ok.injEq, Prod.mk.injEq]
  constructor
  · rintro ⟨stored, _, storedMain, rfl, rfl⟩
    refine ⟨stored, storedMain, ?_⟩
    rw [(storeAll_storeMain_spec storedMain).1]
    rfl
  · rintro ⟨stored, storedMain, rfl⟩
    refine ⟨stored, last, storedMain, ?_, rfl⟩
    rw [(storeAll_storeMain_spec storedMain).1]
    rfl

/-- A short fork accepts its headers, stores them and must then have more work than the main
chain. -/
theorem submitShortForkHeaders_submission_iff {instruction : Instruction} (nonempty : data ≠ [])
    (committed : main.getCommitment base.blockheight = .ok (base.getCommitHash rt)) :
    (∃ events, submitShortForkHeaders rt
        (submission rt signer unixTimestamp data instruction).toContext main data base =
          .ok (next, events)) ↔
      ∃ counter, add64 main.forkCounter 1 = .ok counter ∧
        ∃ children ring height, Accepted rt unixTimestamp base (indexed rt data) children ∧
          storeAll rt storeMain (main.countFork counter) base.blockheight children =
            .ok (ring, height) ∧
          value main.chainWork < value (base.commitAll data).chainWork ∧
          next = ring.moveTo rt (base.commitAll data) height := by
  simp only [submitShortForkHeaders, requireHeaders_submission nonempty, committed, ok_bind,
    bind_eq_ok_iff, require_eq_ok_iff, submitHeaders_eq_ok_iff, zip_remainingAccounts,
    Except.ok.injEq, Prod.mk.injEq, storeAll_countFork_iff]
  constructor
  · rintro ⟨events, _, _, _, ⟨children, ⟨ring, height⟩, accepted, stored, rfl⟩, _, heavier, counter,
      counted, rfl, _⟩
    have last := accepted.getLastD_eq
    have moved := @advance_moveTo rt unixTimestamp base data children ring height
      (.storeFork main.forkCounter)
      ⟨base, base.header.getBlockHash rt, base.blockheight, emptyArray,
        main, []⟩ nonempty accepted rfl
    simp only [Progress.advance, last, gtArr_iff] at heavier
    refine ⟨counter, counted, children, _, height, accepted, ⟨ring, stored, rfl⟩, heavier, ?_⟩
    exact congrArg (MainState.countFork · counter) moved
  · rintro ⟨counter, counted, children, _, height, accepted, ⟨ring, stored, rfl⟩, heavier, rfl⟩
    have last := accepted.getLastD_eq
    have moved := @advance_moveTo rt unixTimestamp base data children ring height
      (.storeFork main.forkCounter)
      ⟨base, base.header.getBlockHash rt, base.blockheight, emptyArray,
        main, []⟩ nonempty accepted rfl
    refine ⟨_, (), trivial, _, ⟨children, (ring, height), accepted, stored, rfl⟩, (), ?_, counter,
      counted,
      congrArg (MainState.countFork · counter) moved, rfl⟩
    simp only [Progress.advance, last, gtArr_iff]
    exact heavier

theorem process_submitShortForkHeaders_iff {ledger final : Ledger}
    (present : ledger.mainState = some main) :
    (∃ events, process rt ledger (submission rt signer unixTimestamp data
        (.submitShortForkHeaders data base)) = .ok (final, events)) ↔
      ∃ next, (∃ events, submitShortForkHeaders rt (submission rt signer unixTimestamp data
          (.submitShortForkHeaders data base)).toContext main data base = .ok (next, events)) ∧
        final = { ledger with mainState := some next } := by
  simp only [process, submission, present, load, ok_bind, bind_eq_ok_iff, Except.ok.injEq,
    Prod.exists, Prod.mk.injEq]
  constructor
  · rintro ⟨_, next, events, submitted, rfl, rfl⟩
    exact ⟨next, ⟨events, submitted⟩, rfl⟩
  · rintro ⟨next, ⟨events, submitted⟩, rfl⟩
    exact ⟨events, next, events, submitted, rfl, rfl⟩

theorem updateFork_none {ledger : Ledger} (absent : ledger.forkState forkId signer = none) :
    ledger.updateFork forkId signer none main = { ledger with mainState := some main } := by
  simp only [Ledger.updateFork, Ledger.setFork, Ledger.mk.injEq, true_and, and_true]
  funext id owner
  split
  · rename_i same
    rw [same.1, same.2, absent]
  · rfl

/-- From a reachable state, a fork that gets ahead of the main chain with its last batch only is
submitted in one instruction exactly when it is submitted and adopted in batches, with the same
ledger at the end. -/
theorem process_submitShortForkHeaders_iff_submitBatches {steps : List RelayStep}
    {ledger : Ledger} {root : CommittedBlockHeader} {batches : List (List BlockHeader)}
    {other : Pubkey} (run : RelayRun rt steps ledger) (present : ledger.mainState = some main)
    (committed : main.getCommitment root.blockheight = .ok (root.getCommitHash rt))
    (nonempty : batches ≠ []) (each : ∀ data ∈ batches, data ≠ [])
    (few : batches.flatten.length ≤ 250)
    (light : ∀ front back, batches = front ++ back → front ≠ [] → back ≠ [] →
      outweighs main root front.flatten = false) (final : Ledger) :
    (∃ events, process rt ledger (submission rt other unixTimestamp batches.flatten
        (.submitShortForkHeaders batches.flatten root)) = .ok (final, events)) ↔
      submitBatches rt signer unixTimestamp main.forkCounter ledger true root batches = .ok final ∧
        final.forkState main.forkCounter signer = none := by
  have flattenNonempty : batches.flatten ≠ [] := by
    intro empty
    rcases batches with _ | ⟨data, rest⟩
    · exact nonempty rfl
    · exact each data List.mem_cons_self (List.flatten_eq_nil_iff.mp empty data List.mem_cons_self)
  have absent : ledger.forkState main.forkCounter signer = none := by
    by_contra accountOpen
    exact UInt64.lt_irrefl _ (lt_forkCounter_of_run run present accountOpen)
  simp only [process_submitShortForkHeaders_iff present,
    submitShortForkHeaders_submission_iff flattenNonempty committed]
  cases counted : add64 main.forkCounter 1 with
  | error failure =>
      -- no fork can be opened once the counter is at its maximum
      constructor
      · rintro ⟨_, ⟨_, ⟨⟩, _⟩, _⟩
      · rintro ⟨submitted, _⟩
        rcases batches with _ | ⟨data, rest⟩
        · exact absurd rfl nonempty
        · rcases submitBatches_cons_iff.mp submitted with ⟨between, processed, _⟩
          rcases (process_submitForkHeaders_iff present).mp processed with ⟨_, _, ⟨_, first⟩, _⟩
          rw [absent] at first
          rcases exists_counted_of_opens first with ⟨counter, some⟩
          cases counted.symm.trans some
  | ok counter =>
      have opens := opensFork_of_absent committed counted
      rw [← absent] at opens
      have adopts := @submitBatches_adopts_iff rt unixTimestamp signer main.forkCounter true main
        (main.countFork counter)
        { ForkState.zeroed with initialized := 1, startHeight := root.blockheight } batches ledger
        final root [] [] present opens ⟨by simp, rfl, rfl, rfl⟩ .nil nonempty each
        (by simpa using few) light
      have start : root.commitAll [] = root := rfl
      rw [start] at adopts
      rw [adopts]
      simp only [AdoptsFork, List.nil_append, updateFork_none absent, Except.ok.injEq]
      constructor
      · rintro ⟨_, ⟨_, rfl, children, ring, height, accepted, stored, heavier, rfl⟩, rfl⟩
        exact ⟨children, ring, height, accepted, stored, heavier, rfl⟩
      · rintro ⟨children, ring, height, accepted, stored, heavier, rfl⟩
        exact ⟨_, ⟨counter, rfl, children, ring, height, accepted, stored, heavier, rfl⟩, rfl⟩

end

section

open Sample

/-- A fork of two blocks from the first one, against a main chain with one block on it. -/
theorem process_submitShortForkHeaders_iff_submitBatches_short2 : ∃ final,
    (∃ events,
      process mainnet (replay mainnet [begin mainnet, extend mainnet [main1Header] start]).2
        (submission mainnet depositor 1721030000 [[short1Header], [short2Header]].flatten
          (.submitShortForkHeaders [[short1Header], [short2Header]].flatten start)) =
        .ok (final, events)) ∧
      submitBatches mainnet emptyArray 1721030000
          (mainStateAfter mainnet [begin mainnet, extend mainnet [main1Header] start]).forkCounter
          (replay mainnet [begin mainnet, extend mainnet [main1Header] start]).2 true start
          [[short1Header], [short2Header]] = .ok final ∧
        final.forkState
          (mainStateAfter mainnet [begin mainnet, extend mainnet [main1Header] start]).forkCounter
          emptyArray = none := by
  have checked :
      (replay mainnet [begin mainnet, extend mainnet [main1Header] start]).2.mainState.isSome =
        true ∧
      (mainStateAfter mainnet [begin mainnet, extend mainnet [main1Header] start]).getCommitment
        start.blockheight = .ok (start.getCommitHash mainnet) ∧
      outweighs (mainStateAfter mainnet [begin mainnet, extend mainnet [main1Header] start]) start
        [short1Header] = false ∧
      (process mainnet (replay mainnet [begin mainnet, extend mainnet [main1Header] start]).2
        (submission mainnet depositor 1721030000 [[short1Header], [short2Header]].flatten
          (.submitShortForkHeaders [[short1Header], [short2Header]].flatten start))).isOk = true :=
    of_decide_eq_true (by decide +kernel)
  rcases checked with ⟨started, committed, light, succeeds⟩
  rcases exists_of_isOk succeeds with ⟨⟨final, events⟩, submitted⟩
  refine ⟨final, ⟨events, submitted⟩, ?_⟩
  apply (process_submitShortForkHeaders_iff_submitBatches (run_replay mainnet _)
    (mainState_replay started) committed ?_ ?_ ?_ ?_ final).mp ⟨events, submitted⟩
  · simp
  · simp
  · simp
  · intro front back split frontNonempty backNonempty
    rcases front with _ | ⟨first, _ | ⟨second, rest⟩⟩
    · exact absurd rfl frontNonempty
    · cases split
      exact light
    · simp only [List.cons_append, List.cons.injEq, List.nil_eq, List.append_eq_nil_iff] at split
      exact absurd split.2.2.2 backNonempty

end

end BtcRelay
