import BtcRelay.Chain.Steps
import BtcRelay.Foundations.History

/-!
# The invariant of the chain

Along every run, whatever is kept in the main state or in a fork account comes from the
committed headers that earlier steps accepted: the entries of the ring buffer are their
commitments, the tip fields are those of one of them, and each fork account holds the
commitments of a chain on top of one of them. The invariant turns a step, which only
knows commitments, into a statement about committed headers (`MainStep`).
-/

namespace BtcRelay

open Exec BigEndian CircularBuffer

/-- The main state describes its tip. -/
structure IsTip (rt : Runtime) (main : MainState) (tip : CommittedBlockHeader) : Prop where
  tipCommitHash : main.tipCommitHash = tip.getCommitHash rt
  tipBlockHash : main.tipBlockHash = tip.header.getBlockHash rt
  chainWork : main.chainWork = tip.chainWork
  lastDiffAdjustment : main.lastDiffAdjustment = tip.lastDiffAdjustment
  blockHeight : main.blockHeight = tip.blockheight

structure MainInvariant (rt : Runtime) (headers : Set CommittedBlockHeader)
    (main : MainState) : Prop where
  tip : ∃ tip ∈ headers, IsTip rt main tip
  inside : main.blockHeight.toNat < main.startHeight.toNat + 250
  stored : main.startHeight.toNat < main.blockHeight.toNat + 250 →
    main.buffer.read main.blockHeight.toNat = some main.tipCommitHash
  entries : ∀ commitment ∈ main.blockCommitments.toList,
    commitment = emptyArray ∨ ∃ committed ∈ headers, committed.getCommitHash rt = commitment
  high : 250 ≤ main.blockHeight.toNat →
    ∀ committed ∈ headers, 250 ≤ committed.blockheight.toNat

/-- A fork account holds the commitments of the blocks on top of a base. -/
structure ForkHolds (rt : Runtime) (headers : Set CommittedBlockHeader) (main : MainState)
    (forkState : ForkState) (base : CommittedBlockHeader)
    (blocks : List CommittedBlockHeader) : Prop where
  initialized : forkState.initialized ≠ 0
  base_mem : base ∈ headers
  blocks_mem : ∀ block ∈ blocks, block ∈ headers
  chain : (base :: blocks).IsChain (Extends rt)
  startHeight : forkState.startHeight = base.blockheight
  stored : forkState.stored = blocks.map (CommittedBlockHeader.getCommitHash rt)
  length : forkState.length.toNat = blocks.length
  room : blocks.length ≤ 250
  high : 250 ≤ main.blockHeight.toNat
  near : base.blockheight.toNat < main.startHeight.toNat + 250

structure ForkInvariant (rt : Runtime) (headers : Set CommittedBlockHeader) (main : MainState)
    (forkState : ForkState) (base : CommittedBlockHeader)
    (blocks : List CommittedBlockHeader) : Prop
    extends ForkHolds rt headers main forkState base blocks where
  tip : ∃ tip, blocks.getLast? = some tip ∧ forkState.tipCommitHash = tip.getCommitHash rt ∧
    forkState.tipBlockHash = tip.header.getBlockHash rt

/-- The opening of a fork account: its id, its signer and the block it is based on. -/
abbrev Opening := UInt64 × Pubkey × CommittedBlockHeader

structure ChainInvariant (rt : Runtime) (headers : Set CommittedBlockHeader)
    (openings : Set Opening) (ledger : Ledger) : Prop where
  unstarted : ledger.mainState = none →
    headers = ∅ ∧ ∀ forkId signer, ledger.forkState forkId signer = none
  main : ∀ main, ledger.mainState = some main → MainInvariant rt headers main
  forks : ∀ main forkId signer forkState, ledger.mainState = some main →
    ledger.forkState forkId signer = some forkState →
    ∃ base blocks, ForkInvariant rt headers main forkState base blocks ∧
      (forkId, signer, base) ∈ openings

/-- The main chain moves to the last of some blocks on top of a base. -/
structure Advances (rt : Runtime) (main : MainState) (base : CommittedBlockHeader)
    (blocks : List CommittedBlockHeader) (tip : CommittedBlockHeader)
    (next : MainState) : Prop where
  chain : (base :: blocks).IsChain (Extends rt)
  last : blocks.getLast? = some tip
  moves : MovesTo rt main base.blockheight.toNat
    (blocks.map (CommittedBlockHeader.getCommitHash rt)) tip next
  blockHeight : next.blockHeight = tip.blockheight
  near : base.blockheight.toNat < main.startHeight.toNat + 250

/-- What a step does to the main state, in terms of committed headers. -/
inductive MainStep (rt : Runtime) (headers : Set CommittedBlockHeader) (openings : Set Opening)
    (before after : Ledger) (request : Request) (accepted : List CommittedBlockHeader) : Prop
  | created {data : BlockHeader} {blockHeight lastDiffAdjustment : UInt32}
      {chainWork : Bytes32} {prevBlockTimestamps : List.Vector UInt32 10}
      (instruction : request.instruction = .initializeRelay data blockHeight chainWork
        lastDiffAdjustment prevBlockTimestamps)
      (absent : before.mainState = none)
      (updated : after.mainState = some (initializeRelay rt data blockHeight chainWork
        lastDiffAdjustment prevBlockTimestamps).1)
      (accepted_eq : accepted =
        [⟨chainWork, data, lastDiffAdjustment, blockHeight, prevBlockTimestamps⟩])
  | unmoved (instruction : ∀ data base forkId init,
        request.instruction ≠ .submitForkHeaders data base forkId init)
      (unchanged : after.mainState = before.mainState) (accepted_eq : accepted = [])
  /-- The new blocks are kept in a fork account. -/
  | kept {main : MainState} {forkCounter : UInt64} {data : List BlockHeader}
      {parent tip : CommittedBlockHeader} {forkId : UInt64} {init : Bool}
      (instruction : request.instruction = .submitForkHeaders data parent forkId init)
      (present : before.mainState = some main)
      (updated : after.mainState = some { main with forkCounter })
      (outweighed : outweighs main parent data = false)
      (chain : (parent :: accepted).IsChain (Extends rt))
      (last : accepted.getLast? = some tip)
      (lighter : value tip.chainWork ≤ value main.chainWork)
  /-- The new blocks are on top of a block that is committed in the main chain. -/
  | committed {main next : MainState} {data : List BlockHeader}
      {base tip : CommittedBlockHeader}
      (instruction : request.instruction = .submitBlockHeaders data base ∧ IsTip rt main base ∨
        request.instruction = .submitShortForkHeaders data base ∧
          value main.chainWork < value tip.chainWork)
      (present : before.mainState = some main) (updated : after.mainState = some next)
      (base_mem : base ∈ headers) (advances : Advances rt main base accepted tip next)
      (length : accepted.length = data.length)
      (commitment : main.getCommitment base.blockheight = .ok (base.getCommitHash rt))
  /-- The new blocks are those of a fork account with the ones submitted last. -/
  | adopted {main next : MainState} {data : List BlockHeader}
      {base parent tip : CommittedBlockHeader} {earlier : List CommittedBlockHeader}
      {forkId : UInt64} {init : Bool}
      (instruction : request.instruction = .submitForkHeaders data parent forkId init)
      (present : before.mainState = some main) (updated : after.mainState = some next)
      (outweighs : outweighs main parent data = true)
      (base_mem : base ∈ headers) (earlier_mem : ∀ block ∈ earlier, block ∈ headers)
      (parent_eq : parent = earlier.getLastD base)
      (advances : Advances rt main base (earlier ++ accepted) tip next)
      (length : accepted.length = data.length)
      (account : earlier = [] ∧ before.forkState forkId request.signer = none ∧ init = true ∧
          main.getCommitment base.blockheight = .ok (base.getCommitHash rt) ∨
        ∃ forkState, before.forkState forkId request.signer = some forkState ∧
          ForkInvariant rt headers main forkState base earlier ∧
          (forkId, request.signer, base) ∈ openings)
      (heavier : value main.chainWork < value tip.chainWork)
      (room : (earlier ++ accepted).length ≤ 250)

/-- The committed header that the caller of an instruction supplies. -/
def Instruction.commitedHeader? : Instruction → Option CommittedBlockHeader
  | .submitBlockHeaders _ commitedHeader => some commitedHeader
  | .submitShortForkHeaders _ commitedHeader => some commitedHeader
  | .submitForkHeaders _ commitedHeader _ _ => some commitedHeader
  | .verifySmallTx _ _ _ _ commitedHeader _ => some commitedHeader
  | .initBigTxVerify _ _ _ _ _ commitedHeader => some commitedHeader
  | _ => none

section

variable {rt : Runtime} {headers known : Set CommittedBlockHeader} {main next : MainState}
  {base tip : CommittedBlockHeader} {blocks : List CommittedBlockHeader}

/-- A commitment returned for a height is that of a committed header in the ring buffer. -/
theorem MainInvariant.of_getCommitment (invariant : MainInvariant rt headers main)
    {height : UInt32} {committed : CommittedBlockHeader} (sound : SoundHashes rt known)
    (included : headers ⊆ known) (member : committed ∈ known)
    (commitment : main.getCommitment height = .ok (committed.getCommitHash rt)) :
    committed ∈ headers ∧ height.toNat ≤ main.blockHeight.toNat ∧
      main.blockHeight.toNat < height.toNat + 250 ∧ 250 ≤ main.blockHeight.toNat ∧
      main.buffer.read height.toNat = some (committed.getCommitHash rt) := by
  have nonzero := sound.nonzero committed member
  have held := read_of_getCommitment invariant.inside commitment nonzero
  rcases invariant.entries _ (Buffer.mem_slots_of_read held.2.2.2) with empty | found
  · exact absurd empty nonzero
  · rcases found with ⟨other, otherMem, same⟩
    have equal := sound.eq_of_getCommitHash (included otherMem) member same
    subst equal
    exact ⟨otherMem, held⟩

theorem MainInvariant.isTip_of_getCommitment (invariant : MainInvariant rt headers main)
    (sound : SoundHashes rt known) (included : headers ⊆ known) (member : base ∈ known)
    (commitment : main.getCommitment main.blockHeight = .ok (base.getCommitHash rt)) :
    IsTip rt main base := by
  rcases invariant.of_getCommitment sound included member commitment with ⟨_, _, _, _, held⟩
  have covers := (Buffer.covers_of_read held).1
  have stored := invariant.stored covers
  rcases invariant.tip with ⟨tip, tipMem, isTip⟩
  rw [held, Option.some.injEq, isTip.tipCommitHash] at stored
  have equal := sound.eq_of_getCommitHash member (included tipMem) stored
  rw [equal]
  exact isTip

theorem ForkHolds.mono {more : Set CommittedBlockHeader} {forkState : ForkState}
    (holds : ForkHolds rt headers main forkState base blocks) (included : headers ⊆ more)
    (later : main.startHeight.toNat ≤ next.startHeight.toNat)
    (high : 250 ≤ next.blockHeight.toNat) : ForkHolds rt more next forkState base blocks :=
  { holds with
    base_mem := included holds.base_mem
    blocks_mem := fun block member => included (holds.blocks_mem block member)
    high
    near := lt_of_lt_of_le holds.near (Nat.add_le_add_right later 250) }

theorem isChain_append_of_getLastD {children : List CommittedBlockHeader}
    (chain : (base :: blocks).IsChain (Extends rt))
    (onTop : (blocks.getLastD base :: children).IsChain (Extends rt)) :
    (base :: (blocks ++ children)).IsChain (Extends rt) := by
  rw [← List.cons_append]
  apply chain.append (List.isChain_cons.mp onTop).2
  intro last lastMem child childMem
  rw [List.getLast?_cons, Option.mem_some_iff] at lastMem
  rw [← lastMem, ← List.getLastD_eq_getLast?]
  exact (List.isChain_cons.mp onTop).1 child childMem

theorem ForkHolds.append {forkState filled : ForkState} {children : List CommittedBlockHeader}
    {more : Set CommittedBlockHeader}
    (holds : ForkHolds rt headers main forkState base blocks) (included : headers ⊆ more)
    (children_mem : ∀ child ∈ children, child ∈ more)
    (onTop : (blocks.getLastD base :: children).IsChain (Extends rt))
    (fields : filled = { forkState with
      blockCommitments := filled.blockCommitments, length := filled.length })
    (stored : filled.stored =
      forkState.stored ++ children.map (CommittedBlockHeader.getCommitHash rt))
    (length : filled.length.toNat = forkState.length.toNat + children.length)
    (room : filled.length.toNat ≤ 250) :
    ForkHolds rt more main filled base (blocks ++ children) where
  initialized := by
    rw [fields]
    exact holds.initialized
  base_mem := included holds.base_mem
  blocks_mem := by
    intro block member
    rcases List.mem_append.mp member with old | new
    · exact included (holds.blocks_mem block old)
    · exact children_mem block new
  chain := isChain_append_of_getLastD holds.chain onTop
  startHeight := by
    rw [fields]
    exact holds.startHeight
  stored := by rw [stored, holds.stored, List.map_append]
  length := by rw [length, holds.length, List.length_append]
  room := by
    rw [List.length_append, ← holds.length, ← length]
    exact room
  high := holds.high
  near := holds.near

/-- A submission to a fork account starts from the last block that the account holds, or from
its base on the main chain. -/
theorem exists_forkHolds_of_forkOpens {opened : MainState} {account : Option ForkState}
    {forkState : ForkState} {parent : CommittedBlockHeader} {forkId : UInt64} {init : Bool}
    {Opened : CommittedBlockHeader → Prop} (mainInvariant : MainInvariant rt headers main)
    (forkInvariant : ∀ forkState, account = some forkState →
      ∃ base blocks, ForkInvariant rt headers main forkState base blocks ∧ Opened base)
    (sound : SoundHashes rt known) (included : headers ⊆ known) (parent_mem : parent ∈ known)
    (opens : ForkOpens rt main account parent forkId init opened forkState) :
    ∃ base blocks, ForkHolds rt headers main forkState base blocks ∧
      parent = blocks.getLastD base ∧ opened = { main with forkCounter := opened.forkCounter } ∧
      (blocks = [] ∧ account = none ∧ init = true ∧
          main.getCommitment base.blockheight = .ok (base.getCommitHash rt) ∨
        ∃ forkState, account = some forkState ∧
          ForkInvariant rt headers main forkState base blocks ∧ Opened base) := by
  cases opens with
  | opened inits absent counter counted committed =>
      rcases mainInvariant.of_getCommitment sound included parent_mem committed with
        ⟨member, upTo, _, high, _⟩
      refine ⟨parent, [], ?_, rfl, rfl, Or.inl ⟨rfl, absent, inits, committed⟩⟩
      have inside := mainInvariant.inside
      exact {
        initialized := by simp
        base_mem := member
        blocks_mem := by simp
        chain := .singleton _
        startHeight := rfl
        stored := rfl
        length := rfl
        room := by simp
        high
        near := by omega }
  | continued _ present initialized tip =>
      rcases forkInvariant forkState present with ⟨base, blocks, invariant, opening⟩
      refine ⟨base, blocks, invariant.toForkHolds, ?_, rfl,
        Or.inr ⟨forkState, present, invariant, opening⟩⟩
      rcases invariant.tip with ⟨last, last_eq, commitHash, _⟩
      rw [List.getLastD_eq_getLast?, last_eq, Option.getD_some]
      apply sound.eq_of_getCommitHash parent_mem
        (included (invariant.blocks_mem last (List.mem_of_getLast? last_eq)))
      rw [tip, commitHash]

namespace Advances

variable (advances : Advances rt main base blocks tip next)

include advances

theorem ne_nil : blocks ≠ [] := by
  have last := advances.last
  rintro rfl
  cases last

theorem height : next.blockHeight.toNat = base.blockheight.toNat + blocks.length := by
  rw [advances.blockHeight]
  exact height_getLast?_of_isChain advances.chain advances.last

theorem tip_mem : tip ∈ blocks := List.mem_of_getLast? advances.last

theorem isTip : IsTip rt next tip where
  tipCommitHash := advances.moves.tipCommitHash
  tipBlockHash := advances.moves.tipBlockHash
  chainWork := advances.moves.chainWork
  lastDiffAdjustment := advances.moves.lastDiffAdjustment
  blockHeight := advances.blockHeight

theorem startHeight_eq : next.startHeight.toNat =
    (main.buffer.writeAll base.blockheight.toNat
      (blocks.map (CommittedBlockHeader.getCommitHash rt))).start := by
  rw [← advances.moves.buffer]
  rfl

theorem startHeight_le : main.startHeight.toNat ≤ next.startHeight.toNat := by
  rw [advances.startHeight_eq]
  have start : main.startHeight.toNat = main.buffer.start := rfl
  rw [start]
  exact Buffer.start_le_start_writeAll

theorem startHeight_lt (kept : main.startHeight.toNat < next.blockHeight.toNat + 250) :
    next.startHeight.toNat < next.blockHeight.toNat + 250 := by
  have bound : (main.buffer.writeAll base.blockheight.toNat
      (blocks.map (CommittedBlockHeader.getCommitHash rt))).start ≤
      max main.startHeight.toNat (base.blockheight.toNat +
        (blocks.map (CommittedBlockHeader.getCommitHash rt)).length) := Buffer.start_writeAll_le
  rw [List.length_map, ← advances.startHeight_eq, ← advances.height] at bound
  omega

theorem inside : next.blockHeight.toNat < next.startHeight.toNat + 250 := by
  rw [advances.height, advances.startHeight_eq,
    ← List.length_map (f := CommittedBlockHeader.getCommitHash rt)]
  exact Buffer.lt_start_writeAll advances.near

theorem stored (kept : next.startHeight.toNat < next.blockHeight.toNat + 250) :
    next.buffer.read next.blockHeight.toNat = some next.tipCommitHash := by
  have last : (blocks.map (CommittedBlockHeader.getCommitHash rt)).getLast? =
      some (tip.getCommitHash rt) := by
    rw [List.getLast?_map, advances.last, Option.map_some]
  rw [advances.height, advances.startHeight_eq] at kept
  rw [advances.moves.buffer, advances.height, advances.moves.tipCommitHash,
    ← List.length_map (f := CommittedBlockHeader.getCommitHash rt)]
  apply Buffer.read_writeAll_last last
  rw [List.length_map]
  exact kept

theorem mainInvariant {more : Set CommittedBlockHeader}
    (invariant : MainInvariant rt headers main) (included : headers ⊆ more)
    (blocks_mem : ∀ block ∈ blocks, block ∈ more)
    (high : ∀ committed ∈ more, 250 ≤ committed.blockheight.toNat) :
    MainInvariant rt more next where
  tip := ⟨tip, blocks_mem tip advances.tip_mem, advances.isTip⟩
  inside := advances.inside
  stored := advances.stored
  entries := by
    intro commitment member
    have slots : next.blockCommitments = next.buffer.slots := rfl
    rw [slots, advances.moves.buffer] at member
    rcases Buffer.mem_slots_of_mem_slots_writeAll member with written | earlier
    · rcases List.mem_map.mp written with ⟨block, blockMem, same⟩
      exact Or.inr ⟨block, blocks_mem block blockMem, same⟩
    · rcases invariant.entries commitment earlier with empty | ⟨committed, committedMem, same⟩
      · exact Or.inl empty
      · exact Or.inr ⟨committed, included committedMem, same⟩
  high := fun _ => high

end Advances

/-- The height of an adopted fork's tip, from the arguments of the submission. -/
theorem Advances.height_of_parent {data : List BlockHeader} {parent : CommittedBlockHeader}
    {earlier accepted : List CommittedBlockHeader}
    (advances : Advances rt main base (earlier ++ accepted) tip next)
    (parent_eq : parent = earlier.getLastD base) (length : accepted.length = data.length) :
    next.blockHeight.toNat = parent.blockheight.toNat + data.length := by
  have chain := advances.chain
  rw [← List.cons_append] at chain
  rw [advances.height, parent_eq, height_getLastD_of_isChain chain.left_of_append, ← length,
    List.length_append]
  omega

section Step

variable {openings : Set Opening} {before after : Ledger} {request : Request}
  {accepted : List CommittedBlockHeader}

theorem mainStep_of_chainStep (invariant : ChainInvariant rt headers openings before)
    (sound : SoundHashes rt known) (included : headers ⊆ known)
    (presented : ∀ committed, request.instruction.commitedHeader? = some committed →
      committed ∈ known)
    (step : ChainStep rt before after request accepted) :
    MainStep rt headers openings before after request accepted := by
  cases step with
  | created instruction absent updated forks =>
      exact .created instruction absent updated rfl
  | @extend main next data base tip _ instruction present updated forks batch committed moves
      height counter =>
      have mainInvariant := invariant.main main present
      have base_mem := presented base (by rw [instruction]; rfl)
      have isTip := mainInvariant.isTip_of_getCommitment sound included base_mem committed
      rw [isTip.blockHeight] at committed moves height
      have near := mainInvariant.inside
      rw [isTip.blockHeight] at near
      have member := mainInvariant.of_getCommitment sound included base_mem committed
      refine .committed (Or.inl ⟨instruction, isTip⟩) present updated member.1
        ⟨batch.isChain, batch.last, moves, ?_, near⟩ batch.length_eq committed
      apply UInt32.toNat_inj.mp
      rw [height, height_getLast?_of_isChain batch.isChain batch.last]
  | @shortFork main next data base tip _ instruction present updated forks batch committed moves
      height heavier counter =>
      have mainInvariant := invariant.main main present
      have base_mem := presented base (by rw [instruction]; rfl)
      rcases mainInvariant.of_getCommitment sound included base_mem committed with
        ⟨member, upTo, _, _, _⟩
      have inside := mainInvariant.inside
      refine .committed (Or.inr ⟨instruction, heavier⟩) present updated member
        ⟨batch.isChain, batch.last, moves, ?_, by omega⟩ batch.length_eq committed
      apply UInt32.toNat_inj.mp
      rw [height, height_getLast?_of_isChain batch.isChain batch.last]
  | @fork main opened next forkState filled account data parent tip forkId init _ instruction
      present updated forks opens batch fields stored length room ends =>
      have parent_mem := presented parent (by rw [instruction]; rfl)
      rcases exists_forkHolds_of_forkOpens (invariant.main main present)
        (fun forkState found => invariant.forks main forkId _ forkState present found)
        sound included parent_mem opens with
        ⟨base, earlier, holds, parent_eq, opened_eq, source⟩
      cases ends with
      | kept lighter =>
          rw [opened_eq] at updated lighter
          have outweighed : outweighs main parent data = false := by
            apply Bool.eq_false_iff.mpr
            intro heavier
            exact absurd (batch.outweighs_iff.mp heavier) (not_lt.mpr lighter)
          exact .kept instruction present updated outweighed batch.isChain batch.last lighter
      | adopted heavier moves height counter =>
          have onTop := batch.isChain
          rw [parent_eq] at onTop
          have filledHolds := holds.append (headers.subset_union_left (t := { c | c ∈ accepted }))
            (fun _ => Or.inr) onTop fields stored length room
          have last : (earlier ++ accepted).getLast? = some tip := by
            rw [List.getLast?_append, batch.last, Option.some_or]
          have buffer := moves.buffer
          rw [filledHolds.startHeight, filledHolds.stored, opened_eq] at buffer
          rw [opened_eq] at heavier
          refine .adopted instruction present updated (batch.outweighs_iff.mpr heavier)
            holds.base_mem holds.blocks_mem
            parent_eq ⟨filledHolds.chain, last, ⟨buffer, moves.tipCommitHash, moves.tipBlockHash,
              moves.chainWork, moves.lastDiffAdjustment⟩, ?_, holds.near⟩ batch.length_eq source
            heavier filledHolds.room
          apply UInt32.toNat_inj.mp
          rw [height, height_getLast?_of_isChain batch.isChain batch.last]
  | close instruction unchanged forks => exact .unmoved (by simp [instruction]) unchanged rfl
  | idle instruction unchanged forks => exact .unmoved instruction unchanged rfl

end Step

end

end BtcRelay
