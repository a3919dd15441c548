import BtcRelay.Network.Replay

/-!
# The best chain

A commitment that the main state returns is that of the tip or of one of its ancestors.
The ring buffer is followed along a path of headers that ends in the tip: of the heights
up to the tip, it holds commitments of the path's headers only. A fork cuts the path at
its base, which keeps this true when the base is on the path. When the base is not, the
adoption must overwrite or leave behind every height up to the base, and in between the
invariant is restricted to the heights above a floor.
-/

namespace BtcRelay

open CircularBuffer History

/-- The ring buffer holds the headers of a path, among the heights from a floor to the tip. -/
structure RingShows (rt : Runtime) (known : Set CommittedBlockHeader) (floor : ℕ)
    (buffer : Buffer Bytes32 250) (height : ℕ)
    (path : List CommittedBlockHeader) : Prop where
  inside : height < buffer.start + 250
  fresh : ∀ k, floor ≤ k → buffer.start ≤ k → k ≤ height → ∃ block ∈ known,
    block.blockheight.toNat = k ∧ buffer.read k = some (block.getCommitHash rt)
  shown : ∀ block ∈ known, floor ≤ block.blockheight.toNat → block.blockheight.toNat ≤ height →
    buffer.read block.blockheight.toNat = some (block.getCommitHash rt) → block ∈ path

namespace RingShows

variable {rt : Runtime} {known : Set CommittedBlockHeader} {floor height : ℕ}
  {buffer : Buffer Bytes32 250} {path blocks : List CommittedBlockHeader}
  {base child : CommittedBlockHeader}

theorem write (shows : RingShows rt known floor buffer height path)
    (sound : SoundHashes rt known) (child_mem : child ∈ known)
    (next : child.blockheight.toNat = height + 1) :
    RingShows rt known floor (buffer.write (height + 1) (child.getCommitHash rt)) (height + 1)
      (path ++ [child]) where
  inside := by
    have inside := shows.inside
    rw [Buffer.start_write]
    split <;> omega
  fresh := by
    intro k aboveFloor aboveStart upTo
    have inside := shows.inside
    have start : (buffer.write (height + 1) (child.getCommitHash rt)).start =
        if buffer.start + 250 ≤ height + 1 then height + 1 else buffer.start :=
      Buffer.start_write
    by_cases last : k = height + 1
    · subst last
      refine ⟨child, child_mem, next, Buffer.read_write_self ?_⟩
      split at start <;> omega
    · have near : ¬buffer.start + 250 ≤ height + 1 := by
        intro past
        rw [if_pos past] at start
        omega
      rw [if_neg near] at start
      rcases shows.fresh k aboveFloor (by omega) (by omega) with ⟨block, block_mem, at_k, held⟩
      refine ⟨block, block_mem, at_k, ?_⟩
      rw [Buffer.read_write_of_lt (by omega) (by omega) (by omega)]
      exact held
  shown := by
    intro block block_mem aboveFloor upTo held
    rcases Buffer.eq_or_read_of_read_write shows.inside upTo held with same | ⟨before, earlier⟩
    · rw [sound.eq_of_getCommitHash block_mem child_mem same]
      exact List.mem_append_right path (List.mem_singleton_self child)
    · exact List.mem_append_left _ (shows.shown block block_mem aboveFloor (by omega) earlier)

theorem writeAll (shows : RingShows rt known floor buffer height path)
    (sound : SoundHashes rt known) (blocks_mem : ∀ block ∈ blocks, block ∈ known)
    (chain : (base :: blocks).IsChain (Extends rt)) (at_base : base.blockheight.toNat = height) :
    RingShows rt known floor
      (buffer.writeAll height (blocks.map (CommittedBlockHeader.getCommitHash rt)))
      (height + blocks.length) (path ++ blocks) := by
  induction blocks generalizing base buffer height path with
  | nil =>
      rw [List.append_nil]
      exact shows
  | cons child rest ih =>
      rcases List.isChain_cons_cons.mp chain with ⟨extend, tail⟩
      have next : child.blockheight.toNat = height + 1 := by rw [extend.height, at_base]
      have written := shows.write sound (blocks_mem child List.mem_cons_self) next
      have rest_mem := fun block member => blocks_mem block (List.mem_cons_of_mem child member)
      have heights : height + (child :: rest).length = height + 1 + rest.length := by
        rw [List.length_cons]
        omega
      rw [heights, List.append_cons]
      exact ih written rest_mem tail next

theorem truncate {rest : List CommittedBlockHeader}
    (shows : RingShows rt known floor buffer height (path ++ base :: rest))
    (chain : (path ++ base :: rest).IsChain (Extends rt))
    (upTo : base.blockheight.toNat ≤ height) :
    RingShows rt known floor buffer base.blockheight.toNat (path ++ [base]) where
  inside := lt_of_le_of_lt upTo shows.inside
  fresh := fun k aboveFloor aboveStart below =>
    shows.fresh k aboveFloor aboveStart (le_trans below upTo)
  shown := by
    intro block block_mem aboveFloor below held
    have member := shows.shown block block_mem aboveFloor (le_trans below upTo) held
    rw [List.append_cons, List.mem_append] at member
    rcases member with before | after
    · exact before
    · have above := height_of_mem_of_isChain chain.right_of_append after
      omega

theorem above (near : base.blockheight.toNat < buffer.start + 250) :
    RingShows rt known (base.blockheight.toNat + 1) buffer base.blockheight.toNat [base] where
  inside := near
  fresh := by
    intro k aboveFloor _ upTo
    omega
  shown := by
    intro block _ aboveFloor upTo
    omega

/-- A height whose slot has been reused for a later one is not read back. -/
theorem ne_of_reused (shows : RingShows rt known floor buffer height path)
    (sound : SoundHashes rt known) {block : CommittedBlockHeader} (block_mem : block ∈ known)
    (reused : block.blockheight.toNat + 250 ≤ height)
    (aboveFloor : floor ≤ block.blockheight.toNat + 250) :
    buffer.read block.blockheight.toNat ≠ some (block.getCommitHash rt) := by
  intro held
  have covers := (Buffer.covers_of_read held).1
  have inside := shows.inside
  rcases shows.fresh _ aboveFloor (le_of_lt covers) reused with ⟨other, other_mem, at_k, later⟩
  rw [Buffer.read_add_capacity covers (by omega), held, Option.some.injEq] at later
  have same := sound.eq_of_getCommitHash block_mem other_mem later
  rw [same] at at_k
  omega

theorem lift (shows : RingShows rt known (floor + 1) buffer height path)
    (started : floor < buffer.start)
    (hidden : ∀ block ∈ known, block.blockheight.toNat ≤ floor →
      buffer.read block.blockheight.toNat ≠ some (block.getCommitHash rt)) :
    RingShows rt known 0 buffer height path where
  inside := shows.inside
  fresh := fun k _ aboveStart upTo => shows.fresh k (by omega) aboveStart upTo
  shown := by
    intro block block_mem _ upTo held
    by_cases below : block.blockheight.toNat ≤ floor
    · exact absurd held (hidden block block_mem below)
    · exact shows.shown block block_mem (by omega) upTo held

end RingShows

/-- A path of accepted headers to the tip, with all that the ring buffer shows. -/
structure BestChain (rt : Runtime) (headers known : Set CommittedBlockHeader) (main : MainState)
    (path : List CommittedBlockHeader) : Prop where
  chain : path.IsChain (Extends rt)
  members : ∀ block ∈ path, block ∈ headers
  tip : ∃ tip, path.getLast? = some tip ∧ IsTip rt main tip
  shows : RingShows rt known 0 main.buffer main.blockHeight.toNat path

/-- If the step submits a fork with more work than the main chain, the fork's base is committed in
the main chain at that moment, or its height is out of reach of the ring buffer once the fork is
adopted. -/
def AdoptsOnMain (rt : Runtime) (openings : List Opening) (step : RelayStep) : Prop :=
  ∀ main data commitedHeader forkId init base, step.before.mainState = some main →
    step.request.instruction = .submitForkHeaders data commitedHeader forkId init →
    outweighs main commitedHeader data = true →
    (forkId, step.request.signer, base) ∈ openings →
    main.getCommitment base.blockheight = .ok (base.getCommitHash rt) ∨
      base.blockheight.toNat + 250 ≤ max (max main.startHeight.toNat main.blockHeight.toNat)
        (commitedHeader.blockheight.toNat + data.length)

section

variable {rt : Runtime} {headers more known : Set CommittedBlockHeader} {main next : MainState}
  {base tip : CommittedBlockHeader} {path blocks : List CommittedBlockHeader}

theorem BestChain.mono (best : BestChain rt headers known main path) (included : headers ⊆ more)
    {forkCounter : UInt64} : BestChain rt more known { main with forkCounter } path where
  chain := best.chain
  members := fun block member => included (best.members block member)
  tip := by
    rcases best.tip with ⟨tip, last, isTip⟩
    exact ⟨tip, last, isTip.1, isTip.2, isTip.3, isTip.4, isTip.5⟩
  shows := best.shows

theorem BestChain.of_advances (advances : Advances rt main base blocks tip next)
    {front : List CommittedBlockHeader} (chain : (front ++ [base]).IsChain (Extends rt))
    (members : ∀ block ∈ front ++ [base] ++ blocks, block ∈ headers)
    (shows : RingShows rt known 0 next.buffer next.blockHeight.toNat (front ++ [base] ++ blocks)) :
    BestChain rt headers known next (front ++ [base] ++ blocks) where
  chain := by
    rw [List.append_assoc, List.singleton_append]
    exact List.isChain_split.mpr ⟨chain, advances.chain⟩
  members := members
  tip := by
    refine ⟨tip, ?_, advances.isTip⟩
    rw [List.getLast?_append, advances.last, Option.some_or]
  shows := shows

theorem BestChain.advance (best : BestChain rt headers known main path)
    (sound : SoundHashes rt known) (advances : Advances rt main base blocks tip next)
    (base_mem : base ∈ known) (blocks_known : ∀ block ∈ blocks, block ∈ known)
    (blocks_mem : ∀ block ∈ blocks, block ∈ more) (included : headers ⊆ more)
    (upTo : base.blockheight.toNat ≤ main.blockHeight.toNat)
    (held : main.buffer.read base.blockheight.toNat = some (base.getCommitHash rt)) :
    ∃ path, BestChain rt more known next path := by
  have on_path := best.shows.shown base base_mem (Nat.zero_le _) upTo held
  rcases List.append_of_mem on_path with ⟨front, rest, rfl⟩
  have cut := best.shows.truncate best.chain upTo
  have shows := cut.writeAll sound blocks_known advances.chain rfl
  rw [← advances.height, ← advances.moves.buffer] at shows
  refine ⟨_, BestChain.of_advances advances (List.isChain_split.mp best.chain).1 ?_ shows⟩
  intro block member
  rcases List.mem_append.mp member with old | new
  · apply included
    apply best.members
    rw [List.append_cons]
    exact List.mem_append_left rest old
  · exact blocks_mem block new

/-- An advance on top of a block whose height is out of reach afterwards. -/
theorem BestChain.replace (best : BestChain rt headers known main path)
    (sound : SoundHashes rt known) (advances : Advances rt main base blocks tip next)
    (base_mem : base ∈ more) (blocks_known : ∀ block ∈ blocks, block ∈ known)
    (blocks_mem : ∀ block ∈ blocks, block ∈ more)
    (replaced : base.blockheight.toNat + 250 ≤
      max (max main.startHeight.toNat main.blockHeight.toNat) next.blockHeight.toNat) :
    ∃ path, BestChain rt more known next path := by
  have start : main.startHeight.toNat ≤ next.buffer.start := advances.startHeight_le
  have oldInside : main.blockHeight.toNat < main.startHeight.toNat + 250 := best.shows.inside
  have inside : next.blockHeight.toNat < next.buffer.start + 250 := advances.inside
  have above : RingShows rt known (base.blockheight.toNat + 1) main.buffer base.blockheight.toNat
      [base] := RingShows.above advances.near
  have shows := above.writeAll sound blocks_known advances.chain rfl
  rw [← advances.height, ← advances.moves.buffer] at shows
  have hidden : ∀ block ∈ known, block.blockheight.toNat ≤ base.blockheight.toNat →
      next.buffer.read block.blockheight.toNat ≠ some (block.getCommitHash rt) := by
    intro block block_mem below held
    have covers : next.buffer.start < block.blockheight.toNat + 250 :=
      (Buffer.covers_of_read held).1
    by_cases written : base.blockheight.toNat + 250 ≤ next.blockHeight.toNat
    · exact shows.ne_of_reused sound block_mem (by omega) (by omega) held
    · -- only the old main chain can have reused the slot
      by_cases past : base.blockheight.toNat + 250 ≤ main.startHeight.toNat
      · omega
      · rw [advances.moves.buffer] at held
        rcases Buffer.mem_or_read_of_read_writeAll advances.near (by omega) held with new | old
        · rcases List.mem_map.mp new with ⟨other, other_mem, same⟩
          have equal := sound.eq_of_getCommitHash (blocks_known other other_mem) block_mem same
          have higher := height_of_mem_of_isChain advances.chain other_mem
          rw [equal] at higher
          omega
        · exact best.shows.ne_of_reused sound block_mem (by omega) (Nat.zero_le _) old
  have lifted := shows.lift (by omega) hidden
  refine ⟨[] ++ [base] ++ blocks, BestChain.of_advances advances (.singleton _) ?_ lifted⟩
  intro block member
  rcases List.mem_cons.mp member with rfl | member
  · exact base_mem
  · exact blocks_mem block member

end

section

variable {rt : Runtime} {steps : List RelayStep} {ledger : Ledger} {main : MainState}
  {known : Set CommittedBlockHeader} {opened : List Opening}

theorem openings_mono {earlier : List RelayStep} (suffix : earlier <:+ steps) :
    openings earlier ⊆ openings steps :=
  (suffix.filterMap _).subset

theorem bestChain_initializeRelay (sound : SoundHashes rt known) {data : BlockHeader}
    {blockHeight lastDiffAdjustment : UInt32} {chainWork : Bytes32}
    {prevBlockTimestamps : List.Vector UInt32 10} {headers : Set CommittedBlockHeader}
    (member : ⟨chainWork, data, lastDiffAdjustment, blockHeight, prevBlockTimestamps⟩ ∈ headers)
    (included : headers ⊆ known) :
    BestChain rt headers known (initializeRelay rt data blockHeight chainWork lastDiffAdjustment
        prevBlockTimestamps).1
      [⟨chainWork, data, lastDiffAdjustment, blockHeight, prevBlockTimestamps⟩] := by
  have invariant := @mainInvariant_initializeRelay rt data blockHeight lastDiffAdjustment
    chainWork prevBlockTimestamps
  refine ⟨.singleton _, ?_, ⟨_, rfl, rfl, rfl, rfl, rfl, rfl⟩, ⟨invariant.inside, ?_, ?_⟩⟩
  · intro block inPath
    rw [List.mem_singleton.mp inPath]
    exact member
  · intro k _ aboveStart upTo
    have only : k = blockHeight.toNat := le_antisymm upTo aboveStart
    refine ⟨_, included member, only.symm, ?_⟩
    rw [only]
    exact invariant.stored (by simp only [initializeRelay]; omega)
  · intro block block_mem _ _ held
    rcases invariant.entries _ (Buffer.mem_slots_of_read held) with empty | ⟨_, rfl, same⟩
    · exact absurd empty (sound.nonzero block block_mem)
    · rw [sound.eq_of_getCommitHash block_mem (included member) same.symm]
      exact List.mem_cons_self

theorem exists_bestChain_of_run (run : RelayRun rt steps ledger) (sound : SoundHashes rt known)
    (included : occurring steps ⊆ known) (openings_mem : openings steps ⊆ opened)
    (adopts : ∀ step ∈ steps, AdoptsOnMain rt opened step)
    (present : ledger.mainState = some main) :
    ∃ path, BestChain rt { c | c ∈ accepted steps } known main path := by
  induction run generalizing main with
  | start fresh =>
      rw [fresh.mainState] at present
      cases present
  | @step steps before after request output run success ih =>
      have whole := Run.step run success
      have suffix := List.suffix_cons (⟨before, request, after, output⟩ : RelayStep) steps
      have soundRun := sound.mono included
      have invariant := chainInvariant_of_run run (soundRun.mono (occurring_mono suffix))
      have previous {main : MainState} (here : before.mainState = some main) :=
        ih (Set.Subset.trans (occurring_mono suffix) included)
          (List.Subset.trans (openings_mono suffix) openings_mem)
          (fun step member => adopts step (List.mem_cons_of_mem _ member)) here
      have older : { c | c ∈ accepted steps } ⊆
          { c | c ∈ accepted (⟨before, request, after, output⟩ :: steps) } :=
        fun _ member => accepted_mono suffix member
      have newer : ∀ block ∈ output.filterMap Event.header?,
          block ∈ { c | c ∈ accepted (⟨before, request, after, output⟩ :: steps) } :=
        fun _ member => List.mem_append_left _ member
      have toKnown : { c | c ∈ accepted (⟨before, request, after, output⟩ :: steps) } ⊆ known :=
        fun _ member => included (Or.inl member)
      cases mainStep_of_run whole soundRun with
      | created instruction absent updated accepted_eq =>
          cases updated.symm.trans present
          refine ⟨_, bestChain_initializeRelay sound (newer _ ?_) toKnown⟩
          rw [accepted_eq]
          exact List.mem_cons_self
      | unmoved _ unchanged accepted_eq =>
          rw [unchanged] at present
          rcases previous present with ⟨path, best⟩
          have same : BestChain rt _ known { main with forkCounter := main.forkCounter } path :=
            best.mono older
          exact ⟨path, same⟩
      | kept _ here updated =>
          cases updated.symm.trans present
          rcases previous here with ⟨path, best⟩
          exact ⟨path, best.mono older⟩
      | @committed main' next data base tip _ here updated base_mem advances _ commitment =>
          cases updated.symm.trans present
          rcases previous here with ⟨path, best⟩
          have base_known := toKnown (older base_mem)
          rcases (invariant.main main' here).of_getCommitment sound (older.trans toKnown)
            base_known commitment with ⟨_, upTo, _, _, held⟩
          exact best.advance sound advances base_known
            (fun block member => toKnown (newer block member)) newer older upTo held
      | @adopted main' next data base parent tip earlier forkId init instruction here updated
          outweighing base_mem earlier_mem parent_eq advances length account heavier room =>
          cases updated.symm.trans present
          rcases previous here with ⟨path, best⟩
          have base_known := toKnown (older base_mem)
          have blocks_mem : ∀ block ∈ earlier ++ output.filterMap Event.header?,
              block ∈ { c | c ∈ accepted (⟨before, request, after, output⟩ :: steps) } := by
            intro block member
            rcases List.mem_append.mp member with old | new
            · exact older (earlier_mem block old)
            · exact newer block new
          have blocks_known := fun block member => toKnown (blocks_mem block member)
          have onMain (commitment : main'.getCommitment base.blockheight =
              .ok (base.getCommitHash rt)) :
              ∃ path, BestChain rt { c | c ∈ accepted (⟨before, request, after, output⟩ :: steps) }
                known main path := by
            rcases (invariant.main main' here).of_getCommitment sound (older.trans toKnown)
              base_known commitment with ⟨_, upTo, _, _, held⟩
            exact best.advance sound advances base_known blocks_known blocks_mem older upTo held
          rcases account with ⟨_, _, _, commitment⟩ | ⟨_, _, _, opening⟩
          · exact onMain commitment
          · rcases adopts _ List.mem_cons_self main' data parent forkId init base here instruction
              outweighing (openings_mem (openings_mono suffix opening)) with commitment | replaced
            · exact onMain commitment
            · rw [← advances.height_of_parent parent_eq length] at replaced
              exact best.replace sound advances (older base_mem) blocks_known blocks_mem replaced

/-- A block is the tip or is reached from it by following the previous block hashes through
accepted headers. -/
def IsAncestor (rt : Runtime) (headers : List CommittedBlockHeader) (main : MainState)
    (block : CommittedBlockHeader) : Prop :=
  ∃ path : List CommittedBlockHeader, path.head? = some block ∧
    path.IsChain (fun parent child =>
      child.header.reversedPrevBlockhash = parent.header.getBlockHash rt) ∧
    (∀ member ∈ path, member ∈ headers) ∧
    ∃ tip, path.getLast? = some tip ∧ tip.header.getBlockHash rt = main.tipBlockHash ∧
      tip.getCommitHash rt = main.tipCommitHash

/-- In a run that adopts forks of the main chain only, whatever passes the commitment check is
the tip or one of its ancestors. -/
theorem isAncestor_of_getCommitment {block : CommittedBlockHeader}
    (run : RelayRun rt steps ledger)
    (sound : SoundHashes rt (insert block (occurring steps)))
    (adopts : ∀ step ∈ steps, AdoptsOnMain rt (openings steps) step)
    (present : ledger.mainState = some main)
    (commitment : main.getCommitment block.blockheight = .ok (block.getCommitHash rt)) :
    IsAncestor rt (accepted steps) main block := by
  have included := Set.subset_insert block (occurring steps)
  have invariant := (chainInvariant_of_run run (sound.mono included)).main main present
  have toKnown : { c | c ∈ accepted steps } ⊆ insert block (occurring steps) :=
    fun _ member => included (Or.inl member)
  rcases invariant.of_getCommitment sound toKnown (Set.mem_insert _ _) commitment with
    ⟨_, upTo, _, _, held⟩
  rcases exists_bestChain_of_run run sound included (List.Subset.refl _) adopts present with
    ⟨path, best⟩
  have on_path := best.shows.shown block (Set.mem_insert _ _) (Nat.zero_le _) upTo held
  rcases List.append_of_mem on_path with ⟨front, rest, rfl⟩
  rcases best.tip with ⟨tip, last, isTip⟩
  refine ⟨block :: rest, rfl, ?_, ?_, tip, ?_, isTip.tipBlockHash.symm, isTip.tipCommitHash.symm⟩
  · apply best.chain.right_of_append.imp
    intro parent child extend
    exact extend.link.symm
  · intro member inPath
    exact best.members member (List.mem_append_right front inPath)
  · rw [List.getLast?_append_of_ne_nil _ (List.cons_ne_nil block rest)] at last
    exact last

def adoptsOnMainChecked (rt : Runtime) (openings : List Opening) (step : RelayStep) : Bool :=
  match step.before.mainState, step.request.instruction with
  | some main, .submitForkHeaders data commitedHeader forkId _ =>
      !outweighs main commitedHeader data || openings.all fun (id, signer, base) =>
        id ≠ forkId || signer ≠ step.request.signer ||
          main.getCommitment base.blockheight = .ok (base.getCommitHash rt)
  | _, _ => true

theorem adoptsOnMain_of_checked {openings : List Opening} {step : RelayStep}
    (checked : adoptsOnMainChecked rt openings step = true) : AdoptsOnMain rt openings step := by
  intro main data commitedHeader forkId init base present instruction outweighing opening
  simp only [adoptsOnMainChecked, present, instruction, outweighing, Bool.not_true,
    Bool.false_or, List.all_eq_true] at checked
  have onMain := checked _ opening
  simp only [ne_eq, not_true_eq_false, decide_false, Bool.false_or, decide_eq_true_eq] at onMain
  exact Or.inl onMain

/-- A block is no ancestor of a tip outside a group of blocks that is closed under taking
children. -/
theorem not_isAncestor_of_closed {headers group : List CommittedBlockHeader}
    {block : CommittedBlockHeader} (block_mem : block ∈ group)
    (closed : ∀ parent ∈ group, ∀ child ∈ headers,
      child.header.reversedPrevBlockhash = parent.header.getBlockHash rt → child ∈ group)
    (outside : ∀ tip ∈ group, tip.header.getBlockHash rt ≠ main.tipBlockHash) :
    ¬IsAncestor rt headers main block := by
  rintro ⟨path, first, chain, members, tip, last, isTip, _⟩
  have inside : ∀ member ∈ path, member ∈ group := by
    induction path generalizing block with
    | nil => simp
    | cons head rest ih =>
        cases Option.some.inj first
        intro member inPath
        rcases List.mem_cons.mp inPath with rfl | later
        · exact block_mem
        · cases rest with
          | nil => cases later
          | cons child rest =>
              rcases List.isChain_cons_cons.mp chain with ⟨link, tail⟩
              have child_mem := members child (List.mem_cons_of_mem _ List.mem_cons_self)
              rw [List.getLast?_cons_cons] at last
              exact ih (closed _ block_mem child child_mem link) rfl tail
                (fun other inRest => members other (List.mem_cons_of_mem _ inRest)) last member
                later
  exact outside tip (inside tip (List.mem_of_getLast? last)) isTip

end

section

open Sample

theorem isAncestor_reorganisation : IsAncestor mainnet (accepted (replay mainnet reorganisation).1)
    (mainStateAfter mainnet reorganisation) short1 := by
  have checked : ((replay mainnet reorganisation).1.all
        (adoptsOnMainChecked mainnet (openings (replay mainnet reorganisation).1)) = true) ∧
      (mainStateAfter mainnet reorganisation).getCommitment short1.blockheight =
        .ok (short1.getCommitHash mainnet) :=
    of_decide_eq_true (by decide +kernel)
  rcases checked with ⟨adopts, committed⟩
  apply isAncestor_of_getCommitment (run_replay mainnet reorganisation)
  · apply soundHashes_reorganisation.mono
    exact Set.insert_subset (by simp) occurring_reorganisation
  · intro step member
    exact adoptsOnMain_of_checked (List.all_eq_true.mp adopts step member)
  · exact mainState_reorganisation
  · exact committed

/-- A fork that is adopted after its base has been replaced leaves the block that replaced the base
committed. -/
theorem not_isAncestor_lostBase :
    RelayRun mainnet (replay mainnet lostBase).1 (replay mainnet lostBase).2 ∧
      SoundHashes mainnet (insert short1 (occurring (replay mainnet lostBase).1)) ∧
      (replay mainnet lostBase).2.mainState = some (mainStateAfter mainnet lostBase) ∧
      (mainStateAfter mainnet lostBase).getCommitment short1.blockheight =
        .ok (short1.getCommitHash mainnet) ∧
      ¬IsAncestor mainnet (accepted (replay mainnet lostBase).1)
        (mainStateAfter mainnet lostBase) short1 := by
  have checked : hashesChecked mainnet
        [start, main1, main2, long1, short1, short2, short3, long2, long3]
        (replay mainnet lostBase).1 = true ∧
      (replay mainnet lostBase).2.mainState.isSome = true ∧
      (mainStateAfter mainnet lostBase).getCommitment short1.blockheight =
        .ok (short1.getCommitHash mainnet) ∧
      (∀ parent ∈ [short1, short2, short3], ∀ child ∈ accepted (replay mainnet lostBase).1,
        child.header.reversedPrevBlockhash = parent.header.getBlockHash mainnet →
          child ∈ [short1, short2, short3]) ∧
      ∀ tip ∈ [short1, short2, short3],
        tip.header.getBlockHash mainnet ≠ (mainStateAfter mainnet lostBase).tipBlockHash :=
    of_decide_eq_true (by decide +kernel)
  rcases checked with ⟨hashes, started, committed, closed, outside⟩
  refine ⟨run_replay mainnet lostBase, ?_, mainState_replay started, committed, ?_⟩
  · apply (soundHashes_of_hashesChecked hashes).mono
    exact Set.insert_subset (by simp) (occurring_subset_of_hashesChecked hashes)
  · exact not_isAncestor_of_closed List.mem_cons_self closed outside

end

end BtcRelay
