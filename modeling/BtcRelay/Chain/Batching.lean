import BtcRelay.Network.Replay

/-!
# Batches of headers

A list of headers can be submitted in one instruction or cut into several ones, each on
top of the last block of the one before. Acceptance and storage compose along such a cut,
and the tip that a submission stores can be read back by the next one, at every position
of the ring buffer.
-/

namespace BtcRelay

open Exec CircularBuffer

/-- The last committed header after some headers on top of a committed one. -/
def CommittedBlockHeader.commitAll (base : CommittedBlockHeader) (data : List BlockHeader) :
    CommittedBlockHeader :=
  data.foldl CommittedBlockHeader.commit base

/-- A transaction with the accounts that index the submitted headers. -/
def submission (rt : Runtime) (signer : Pubkey) (unixTimestamp : ℤ) (data : List BlockHeader)
    (instruction : Instruction) : Request where
  signer
  remainingAccounts := data.map fun header => headerTopic rt (header.getBlockHash rt)
  unixTimestamp
  instruction

def indexed (rt : Runtime) (data : List BlockHeader) : List (BlockHeader × Pubkey) :=
  data.map fun header => (header, headerTopic rt (header.getBlockHash rt))

section

variable {rt : Runtime} {unixTimestamp : ℤ} {base : CommittedBlockHeader}
  {data more : List BlockHeader} {first second : List (BlockHeader × Pubkey)}
  {children : List CommittedBlockHeader}

theorem commitAll_append (base : CommittedBlockHeader) (data more : List BlockHeader) :
    base.commitAll (data ++ more) = (base.commitAll data).commitAll more :=
  List.foldl_append

theorem indexed_append (rt : Runtime) (data more : List BlockHeader) :
    indexed rt (data ++ more) = indexed rt data ++ indexed rt more :=
  List.map_append

theorem zip_remainingAccounts {signer : Pubkey} {instruction : Instruction} :
    data.zip (submission rt signer unixTimestamp data instruction).remainingAccounts =
      indexed rt data := by
  simp only [submission, indexed]
  induction data with
  | nil => rfl
  | cons header rest ih => simp only [List.map_cons, List.zip_cons_cons, ih]

theorem requireHeaders_submission {signer : Pubkey} {instruction : Instruction}
    (nonempty : data ≠ []) :
    requireHeaders (submission rt signer unixTimestamp data instruction).toContext data =
      .ok () := by
  simp [requireHeaders, submission, nonempty]

namespace Accepted

theorem getLastD_eq (accepted : Accepted rt unixTimestamp base (indexed rt data) children) :
    children.getLastD base = base.commitAll data := by
  induction data generalizing base children with
  | nil =>
      cases accepted
      rfl
  | cons header rest ih =>
      generalize submitted : indexed rt (header :: rest) = all at accepted
      cases accepted with
      | nil => cases submitted
      | @cons _ child topic _ children checks link tail =>
          simp only [indexed, List.map_cons, List.cons.injEq, Prod.mk.injEq] at submitted
          rcases submitted with ⟨⟨rfl, _⟩, rfl⟩
          have last := ih tail
          rw [List.getLastD_cons, last, checks.eq_commit]
          rfl

theorem length_indexed (accepted : Accepted rt unixTimestamp base (indexed rt data) children) :
    children.length = data.length := by
  rw [accepted.length_eq, indexed, List.length_map]

theorem getLast?_eq (accepted : Accepted rt unixTimestamp base (indexed rt data) children)
    (nonempty : data ≠ []) : children.getLast? = some (base.commitAll data) := by
  have lengths := accepted.length_indexed
  have last := accepted.getLastD_eq
  rw [List.getLastD_eq_getLast?] at last
  cases found : children.getLast? with
  | none =>
      rw [List.getLast?_eq_none_iff.mp found] at lengths
      exact absurd (List.length_eq_zero_iff.mp lengths.symm) nonempty
  | some block => rw [← last, found, Option.getD_some]

/-- Acceptance composes: the rest is accepted on top of the last block of the first part. -/
theorem append_iff : Accepted rt unixTimestamp base (first ++ second) children ↔
    ∃ earlier later, children = earlier ++ later ∧
      Accepted rt unixTimestamp base first earlier ∧
      Accepted rt unixTimestamp (earlier.getLastD base) second later := by
  induction first generalizing base children with
  | nil =>
      constructor
      · intro accepted
        exact ⟨[], children, rfl, .nil, accepted⟩
      · rintro ⟨earlier, later, rfl, none, accepted⟩
        cases none
        exact accepted
  | cons submitted rest ih =>
      constructor
      · intro accepted
        cases accepted with
        | @cons _ child topic _ children checks link tail =>
            rcases ih.mp tail with ⟨earlier, later, rfl, before, after⟩
            refine ⟨child :: earlier, later, rfl, .cons checks link before, ?_⟩
            rw [List.getLastD_cons]
            exact after
      · rintro ⟨earlier, later, rfl, before, after⟩
        cases before with
        | @cons _ child topic _ earlier checks link tail =>
            rw [List.getLastD_cons] at after
            exact .cons checks link (ih.mpr ⟨earlier, later, rfl, tail, after⟩)

end Accepted

section Storage

variable {σ : Type} {store : σ → UInt32 → Bytes32 → Exec σ}

theorem storeAll_append (account : σ) (height : UInt32)
    (earlier later : List CommittedBlockHeader) :
    storeAll rt store account height (earlier ++ later) = (do
      let (account, height) ← storeAll rt store account height earlier
      storeAll rt store account height later) := by
  induction earlier generalizing account height with
  | nil => rfl
  | cons child rest ih =>
      simp only [List.cons_append, storeAll, ih]
      cases add32 height 1 with
      | error failure => rfl
      | ok next =>
          simp only [ok_bind]
          cases store account next (child.getCommitHash rt) with
          | error failure => rfl
          | ok stored => rfl

end Storage

theorem storeMain_withRing (other main : MainState) (height : UInt32) (commitment : Bytes32) :
    storeMain (other.withRing main) height commitment = (do
      let ring ← storeMain main height commitment
      .ok (other.withRing ring)) := by
  have position : (other.withRing main).getPosition height = main.getPosition height := rfl
  simp only [storeMain, MainState.storeBlockCommitment, position]
  cases main.getPosition height with
  | error failure => rfl
  | ok slot =>
      simp only [ok_bind]
      split
      · rfl
      · simp only [MainState.withRing]
        cases update main.blockCommitments slot commitment with
        | error failure => rfl
        | ok slots =>
            simp only [ok_bind]
            cases add32 main.totalBlocks 1 with
            | error failure => rfl
            | ok total => rfl

theorem storeAll_withRing (other main : MainState) (height : UInt32)
    (children : List CommittedBlockHeader) :
    storeAll rt storeMain (other.withRing main) height children = (do
      let (ring, height) ← storeAll rt storeMain main height children
      .ok (other.withRing ring, height)) := by
  induction children generalizing main height with
  | nil => rfl
  | cons child rest ih =>
      simp only [storeAll, storeMain_withRing]
      cases add32 height 1 with
      | error failure => rfl
      | ok next =>
          simp only [ok_bind]
          cases storeMain main next (child.getCommitHash rt) with
          | error failure => rfl
          | ok ring => exact ih ring next

/-- The main state after its tip has moved to a committed header. -/
def MainState.moveTo (rt : Runtime) (ring : MainState) (tip : CommittedBlockHeader)
    (height : UInt32) : MainState :=
  ring.updateTip tip height (tip.getCommitHash rt) (tip.header.getBlockHash rt)

theorem withRing_moveTo {other ring : MainState} {tip : CommittedBlockHeader} {height : UInt32}
    (counter : other.forkCounter = ring.forkCounter) :
    (other.withRing ring).moveTo rt tip height = ring.moveTo rt tip height := by
  simp only [MainState.moveTo, MainState.updateTip, MainState.withRing, counter]

section Main

variable {main ring next : MainState} {height last : UInt32} {signer : Pubkey}
  {events : List Event} {tip : CommittedBlockHeader}

theorem getCommitment_moveTo
    (stored : storeAll rt storeMain main height children = .ok (ring, last))
    (some_last : children.getLast? = some tip)
    (inside : height.toNat < main.startHeight.toNat + 250)
    (kept : main.startHeight.toNat < height.toNat + children.length + 250)
    (high : 250 ≤ height.toNat) :
    (ring.moveTo rt tip last).getCommitment last = .ok (tip.getCommitHash rt) := by
  rcases storeAll_storeMain_spec stored with ⟨_, buffer, counted⟩
  have lengths : (children.map (CommittedBlockHeader.getCommitHash rt)).length = children.length :=
    List.length_map _
  have start : (ring.moveTo rt tip last).buffer = main.buffer.writeAll height.toNat
      (children.map (CommittedBlockHeader.getCommitHash rt)) := buffer
  have startEq : (ring.moveTo rt tip last).startHeight.toNat =
      (ring.moveTo rt tip last).buffer.start := rfl
  have insideNext : last.toNat < (ring.moveTo rt tip last).startHeight.toNat + 250 := by
    rw [startEq, start, counted, ← lengths]
    exact Buffer.lt_start_writeAll inside
  have bound : (main.buffer.writeAll height.toNat
      (children.map (CommittedBlockHeader.getCommitHash rt))).start ≤
      max main.startHeight.toNat (height.toNat + children.length) := by
    rw [← lengths]
    exact Buffer.start_writeAll_le
  apply getCommitment_of_read insideNext
  · simp only [MainState.moveTo, MainState.updateTip]
    omega
  · exact le_refl _
  · simp only [MainState.moveTo, MainState.updateTip]
    omega
  · rw [start, counted, ← lengths]
    apply Buffer.read_writeAll_last
    · rw [List.getLast?_map, some_last, Option.map_some]
    · rw [lengths]
      apply lt_of_le_of_lt bound
      simp only [PRUNING_FACTOR]
      omega

theorem advance_moveTo {event : Bytes32 → Bytes32 → CommittedBlockHeader → Event}
    {progress : Progress MainState} (nonempty : data ≠ [])
    (accepted : Accepted rt unixTimestamp base (indexed rt data) children)
    (starts : progress.lastCommitedHeader = base) :
    let after := progress.advance rt event children (ring, height)
    ring.updateTip after.lastCommitedHeader height after.blockCommitHash after.lastBlockHash =
      ring.moveTo rt (base.commitAll data) height := by
  have some_last := accepted.getLast?_eq nonempty
  have last := accepted.getLastD_eq
  simp only [Progress.advance, starts, last, MainState.moveTo, List.getLastD_eq_getLast?,
    List.getLast?_map, some_last, Option.map_some, Option.getD_some]

/-- A submission to the main chain accepts its headers and stores them. -/
theorem submitBlockHeaders_submission_iff {instruction : Instruction} (nonempty : data ≠ []) :
    submitBlockHeaders rt (submission rt signer unixTimestamp data instruction).toContext main data
        base = .ok (next, events) ↔
      main.getCommitment main.blockHeight = .ok (base.getCommitHash rt) ∧
        ∃ children ring height, Accepted rt unixTimestamp base (indexed rt data) children ∧
          storeAll rt storeMain main main.blockHeight children = .ok (ring, height) ∧
          next = ring.moveTo rt (base.commitAll data) height ∧
          events = children.map (headerEvent rt .storeHeader) := by
  simp only [submitBlockHeaders, requireHeaders_submission nonempty, ok_bind, bind_eq_ok_iff,
    require_eq_ok_iff, submitHeaders_eq_ok_iff, zip_remainingAccounts, Except.ok.injEq,
    Prod.mk.injEq]
  constructor
  · rintro ⟨_, committed, _, rfl, _, ⟨children, ⟨ring, height⟩, accepted, stored, rfl⟩, rfl, rfl⟩
    refine ⟨committed, children, ring, height, accepted, stored, ?_, rfl⟩
    exact advance_moveTo nonempty accepted rfl
  · rintro ⟨committed, children, ring, height, accepted, stored, rfl, rfl⟩
    refine ⟨_, committed, (), rfl, _, ⟨children, (ring, height), accepted, stored, rfl⟩, ?_, rfl⟩
    exact advance_moveTo nonempty accepted rfl

theorem submitBlockHeaders_append (first second whole : Instruction) (other : Pubkey)
    (inside : main.blockHeight.toNat < main.startHeight.toNat + 250)
    (kept : main.startHeight.toNat < main.blockHeight.toNat + 250)
    (high : 250 ≤ main.blockHeight.toNat) (nonempty : data ≠ []) (moreNonempty : more ≠ []) :
    submitBlockHeaders rt (submission rt signer unixTimestamp (data ++ more) whole).toContext main
        (data ++ more) base = .ok (next, events) ↔
      ∃ middle earlier later,
        submitBlockHeaders rt (submission rt signer unixTimestamp data first).toContext main data
          base = .ok (middle, earlier) ∧
        submitBlockHeaders rt (submission rt other unixTimestamp more second).toContext middle more
          (base.commitAll data) = .ok (next, later) ∧
        events = earlier ++ later := by
  have wholeNonempty : data ++ more ≠ [] := List.append_ne_nil_of_left_ne_nil nonempty more
  simp only [submitBlockHeaders_submission_iff wholeNonempty,
    submitBlockHeaders_submission_iff nonempty, submitBlockHeaders_submission_iff moreNonempty,
    indexed_append, Accepted.append_iff]
  -- the second part starts on the tip that the first one has stored
  have continues {ring : MainState} {last : UInt32} {children : List CommittedBlockHeader}
      (accepted : Accepted rt unixTimestamp base (indexed rt data) children)
      (stored : storeAll rt storeMain main main.blockHeight children = .ok (ring, last)) :
      (ring.moveTo rt (base.commitAll data) last).getCommitment last =
        .ok ((base.commitAll data).getCommitHash rt) :=
    getCommitment_moveTo stored (accepted.getLast?_eq nonempty) inside (by omega) high
  have storesOn {ring : MainState} {last : UInt32} (later : List CommittedBlockHeader) :
      storeAll rt storeMain (ring.moveTo rt (base.commitAll data) last) last later = (do
        let (final, height) ← storeAll rt storeMain ring last later
        .ok ((ring.moveTo rt (base.commitAll data) last).withRing final, height)) := by
    have moved : ring.moveTo rt (base.commitAll data) last =
        (ring.moveTo rt (base.commitAll data) last).withRing ring := rfl
    exact (congrArg (fun main => storeAll rt storeMain main last later) moved).trans
      (storeAll_withRing _ ring last later)
  constructor
  · rintro ⟨committed, _, ring, height, ⟨earlier, later, rfl, before, after⟩, stored, rfl, rfl⟩
    rw [storeAll_append] at stored
    simp only [bind_eq_ok_iff, Prod.exists] at stored
    rcases stored with ⟨middle, last, storedFirst, storedRest⟩
    rw [before.getLastD_eq] at after
    refine ⟨_, _, _, ⟨committed, earlier, middle, last, before, storedFirst, rfl, rfl⟩,
      ⟨continues before storedFirst, later,
        (middle.moveTo rt (base.commitAll data) last).withRing ring, height, after, ?_, ?_, rfl⟩,
      List.map_append⟩
    · exact (storesOn later).trans (by rw [storedRest]; rfl)
    · rw [commitAll_append, withRing_moveTo]
      have ringFinal := (storeAll_storeMain_spec storedRest).1
      rw [ringFinal]
      rfl
  · rintro ⟨_, _, _, ⟨committed, earlier, middle, last, before, storedFirst, rfl, rfl⟩,
      ⟨_, later, ring, height, after, storedRest, rfl, rfl⟩, rfl⟩
    replace storedRest := (storesOn later).symm.trans storedRest
    simp only [bind_eq_ok_iff, Prod.exists, Except.ok.injEq, Prod.mk.injEq] at storedRest
    rcases storedRest with ⟨final, height, storedRest, rfl, rfl⟩
    refine ⟨committed, earlier ++ later, final, height, ⟨earlier, later, rfl, before, ?_⟩, ?_, ?_,
      List.map_append.symm⟩
    · rw [before.getLastD_eq]
      exact after
    · rw [storeAll_append, storedFirst, ok_bind]
      exact storedRest
    · rw [commitAll_append, withRing_moveTo]
      have ringFinal := (storeAll_storeMain_spec storedRest).1
      rw [ringFinal]
      rfl

theorem process_submitBlockHeaders_iff {ledger after : Ledger}
    (present : ledger.mainState = some main) :
    process rt ledger (submission rt signer unixTimestamp data (.submitBlockHeaders data base)) =
        .ok (after, events) ↔
      ∃ next, submitBlockHeaders rt (submission rt signer unixTimestamp data
          (.submitBlockHeaders data base)).toContext main data base = .ok (next, events) ∧
        after = { ledger with mainState := some next } := by
  simp only [process, submission, present, load, ok_bind, bind_eq_ok_iff, Except.ok.injEq,
    Prod.exists, Prod.mk.injEq]
  constructor
  · rintro ⟨next, _, submitted, rfl, rfl⟩
    exact ⟨next, submitted, rfl⟩
  · rintro ⟨next, submitted, rfl⟩
    exact ⟨next, events, submitted, rfl, rfl⟩

/-- From a reachable state whose tip can be read, a list of headers is submitted in one
instruction exactly when it is submitted in two, with the same ledger at the end. -/
theorem process_submitBlockHeaders_append {steps : List RelayStep} {ledger after : Ledger}
    {other : Pubkey} (run : RelayRun rt steps ledger)
    (sound : SoundHashes rt (insert base (occurring steps)))
    (present : ledger.mainState = some main) (high : 250 ≤ main.blockHeight.toNat)
    (readable : main.getCommitment main.blockHeight = .ok (base.getCommitHash rt))
    (nonempty : data ≠ []) (moreNonempty : more ≠ []) :
    process rt ledger (submission rt signer unixTimestamp (data ++ more)
        (.submitBlockHeaders (data ++ more) base)) = .ok (after, events) ↔
      ∃ middle earlier later,
        process rt ledger (submission rt signer unixTimestamp data
          (.submitBlockHeaders data base)) = .ok (middle, earlier) ∧
        process rt middle (submission rt other unixTimestamp more
          (.submitBlockHeaders more (base.commitAll data))) = .ok (after, later) ∧
        events = earlier ++ later := by
  have known := sound.mono (Set.subset_insert _ _)
  have invariant := (chainInvariant_of_run run known).main main present
  have inside := invariant.inside
  have held := invariant.of_getCommitment sound
    (fun _ member => Set.mem_insert_of_mem base (Or.inl member)) (Set.mem_insert base _) readable
  have kept : main.startHeight.toNat < main.blockHeight.toNat + 250 :=
    (Buffer.covers_of_read held.2.2.2.2).1
  simp only [process_submitBlockHeaders_iff present]
  have cut (next : MainState) :=
    @submitBlockHeaders_append rt unixTimestamp base data more main next signer events
      (.submitBlockHeaders data base) (.submitBlockHeaders more (base.commitAll data))
      (.submitBlockHeaders (data ++ more) base) other inside kept high nonempty moreNonempty
  constructor
  · rintro ⟨next, submitted, rfl⟩
    rcases (cut next).mp submitted with ⟨middle, earlier, later, first, second, rfl⟩
    refine ⟨_, earlier, later, ⟨middle, first, rfl⟩, ?_, rfl⟩
    exact (process_submitBlockHeaders_iff rfl).mpr ⟨next, second, rfl⟩
  · rintro ⟨_, earlier, later, ⟨middle, first, rfl⟩, second, rfl⟩
    rcases (process_submitBlockHeaders_iff rfl).mp second with ⟨next, submitted, rfl⟩
    exact ⟨next, (cut next).mpr ⟨middle, earlier, later, first, submitted, rfl⟩, rfl⟩

end Main

end

section

open Sample

/-- Two blocks on top of the first one, submitted in one instruction and in two. -/
theorem process_submitBlockHeaders_append_main2 : ∃ after events,
    process mainnet (replay mainnet [begin mainnet]).2
        (submission mainnet emptyArray 1721030000 ([main1Header] ++ [main2Header])
          (.submitBlockHeaders ([main1Header] ++ [main2Header]) start)) = .ok (after, events) ∧
      ∃ middle earlier later,
        process mainnet (replay mainnet [begin mainnet]).2
          (submission mainnet emptyArray 1721030000 [main1Header]
            (.submitBlockHeaders [main1Header] start)) = .ok (middle, earlier) ∧
        process mainnet middle (submission mainnet depositor 1721030000 [main2Header]
          (.submitBlockHeaders [main2Header] (start.commitAll [main1Header]))) =
            .ok (after, later) ∧
        events = earlier ++ later := by
  have checked : (replay mainnet [begin mainnet]).2.mainState.isSome = true ∧
      hashesChecked mainnet [start] (replay mainnet [begin mainnet]).1 = true ∧
      250 ≤ (mainStateAfter mainnet [begin mainnet]).blockHeight.toNat ∧
      (mainStateAfter mainnet [begin mainnet]).getCommitment
        (mainStateAfter mainnet [begin mainnet]).blockHeight = .ok (start.getCommitHash mainnet) ∧
      (process mainnet (replay mainnet [begin mainnet]).2
        (submission mainnet emptyArray 1721030000 ([main1Header] ++ [main2Header])
          (.submitBlockHeaders ([main1Header] ++ [main2Header]) start))).isOk = true :=
    of_decide_eq_true (by decide +kernel)
  rcases checked with ⟨started, hashes, high, readable, succeeds⟩
  rcases exists_of_isOk succeeds with ⟨⟨after, events⟩, submitted⟩
  refine ⟨after, events, submitted, ?_⟩
  apply (process_submitBlockHeaders_append (run_replay mainnet [begin mainnet]) ?_
    (mainState_replay started) high readable ?_ ?_).mp submitted
  · apply (soundHashes_of_hashesChecked hashes).mono
    apply Set.insert_subset
    · exact List.mem_singleton_self start
    · exact occurring_subset_of_hashesChecked hashes
  · simp
  · simp

end

end BtcRelay
