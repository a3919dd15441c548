import BtcRelay.Chain.Submission
import Mathlib.Data.Set.Function

/-!
# Lineages of committed headers

A committed header extends another one when it passes the checks on top of it and names
its block hash. The headers that a submission accepts form a chain on top of their base,
along which the height grows by one. Commitments stand for committed headers as long as
the hash function has no collision among those that occur.
-/

namespace BtcRelay

/-- One committed header on top of another. -/
structure Extends (rt : Runtime) (parent child : CommittedBlockHeader) : Prop where
  link : parent.header.getBlockHash rt = child.header.reversedPrevBlockhash
  checks : ∃ topic unixTimestamp, HeaderChecks rt parent topic unixTimestamp child

theorem Extends.height {rt : Runtime} {parent child : CommittedBlockHeader}
    (extend : Extends rt parent child) :
    child.blockheight.toNat = parent.blockheight.toNat + 1 := by
  rcases extend.checks with ⟨_, _, checks⟩
  exact checks.height

/-- The hash assumptions about a set of committed headers: no two of them collide, and none
has the commitment that stands for an absent one. -/
structure SoundHashes (rt : Runtime) (headers : Set CommittedBlockHeader) : Prop where
  collisionFree : Set.InjOn rt.sha256 (CommittedBlockHeader.tryToVec '' headers)
  nonzero : ∀ committed ∈ headers, committed.getCommitHash rt ≠ emptyArray

namespace SoundHashes

variable {rt : Runtime} {headers more : Set CommittedBlockHeader}

theorem eq_of_getCommitHash (sound : SoundHashes rt headers)
    {first second : CommittedBlockHeader} (firstMem : first ∈ headers)
    (secondMem : second ∈ headers)
    (same : first.getCommitHash rt = second.getCommitHash rt) : first = second := by
  apply CommittedBlockHeader.tryToVec_injective
  exact sound.collisionFree ⟨first, firstMem, rfl⟩ ⟨second, secondMem, rfl⟩ same

theorem mono (sound : SoundHashes rt more) (included : headers ⊆ more) :
    SoundHashes rt headers where
  collisionFree := sound.collisionFree.mono (Set.image_mono included)
  nonzero committed member := sound.nonzero committed (included member)

end SoundHashes

namespace Accepted

variable {rt : Runtime} {unixTimestamp : ℤ} {base : CommittedBlockHeader}
  {submitted : List (BlockHeader × Pubkey)} {children : List CommittedBlockHeader}

theorem isChain (accepted : Accepted rt unixTimestamp base submitted children) :
    (base :: children).IsChain (Extends rt) := by
  induction accepted with
  | nil => exact .singleton _
  | cons checks link tail ih => exact .cons_cons ⟨link, _, _, checks⟩ ih

theorem map_header (accepted : Accepted rt unixTimestamp base submitted children) :
    children.map CommittedBlockHeader.header = submitted.map Prod.fst := by
  induction accepted with
  | nil => rfl
  | cons checks link tail ih => simp only [List.map_cons, ih]

theorem length_eq (accepted : Accepted rt unixTimestamp base submitted children) :
    children.length = submitted.length := by
  have lengths := congrArg List.length accepted.map_header
  simpa only [List.length_map] using lengths

end Accepted

section Chain

variable {rt : Runtime} {base tip block : CommittedBlockHeader}
  {blocks : List CommittedBlockHeader}

theorem height_getElem_of_isChain (chain : (base :: blocks).IsChain (Extends rt)) {i : ℕ}
    (inRange : i < blocks.length) :
    blocks[i].blockheight.toNat = base.blockheight.toNat + 1 + i := by
  induction blocks generalizing base i with
  | nil => exact absurd inRange (Nat.not_lt_zero i)
  | cons first rest ih =>
      rcases List.isChain_cons_cons.mp chain with ⟨extend, tail⟩
      have height := extend.height
      cases i with
      | zero =>
          simp only [List.getElem_cons_zero]
          omega
      | succ i =>
          simp only [List.length_cons] at inRange
          have := ih tail (i := i) (by omega)
          simp only [List.getElem_cons_succ]
          omega

theorem height_of_mem_of_isChain (chain : (base :: blocks).IsChain (Extends rt))
    (member : block ∈ blocks) :
    base.blockheight.toNat < block.blockheight.toNat ∧
      block.blockheight.toNat ≤ base.blockheight.toNat + blocks.length := by
  rcases List.getElem_of_mem member with ⟨i, inRange, rfl⟩
  have height := height_getElem_of_isChain chain inRange
  omega

theorem height_getLast?_of_isChain (chain : (base :: blocks).IsChain (Extends rt))
    (last : blocks.getLast? = some tip) :
    tip.blockheight.toNat = base.blockheight.toNat + blocks.length := by
  have nonempty : blocks ≠ [] := by
    rintro rfl
    cases last
  have positive := List.length_pos_iff.mpr nonempty
  rw [List.getLast?_eq_getLast_of_ne_nil nonempty, Option.some.injEq,
    List.getLast_eq_getElem] at last
  have height := height_getElem_of_isChain chain (i := blocks.length - 1) (by omega)
  rw [last] at height
  omega

theorem height_getLastD_of_isChain (chain : (base :: blocks).IsChain (Extends rt)) :
    (blocks.getLastD base).blockheight.toNat = base.blockheight.toNat + blocks.length := by
  rw [List.getLastD_eq_getLast?]
  cases last : blocks.getLast? with
  | none =>
      rw [List.getLast?_eq_none_iff.mp last]
      rfl
  | some block => exact height_getLast?_of_isChain chain last

end Chain

/-- A nonempty batch of headers accepted on top of a base, with its last block. -/
structure Batch (rt : Runtime) (ctx : Context) (data : List BlockHeader)
    (base : CommittedBlockHeader) (children : List CommittedBlockHeader)
    (tip : CommittedBlockHeader) : Prop where
  accepted : Accepted rt ctx.unixTimestamp base (data.zip ctx.remainingAccounts) children
  headers : children.map CommittedBlockHeader.header = data
  last : children.getLast? = some tip

namespace Batch

variable {rt : Runtime} {ctx : Context} {data : List BlockHeader}
  {base tip : CommittedBlockHeader} {children : List CommittedBlockHeader}

theorem length_eq (batch : Batch rt ctx data base children tip) :
    children.length = data.length := by
  rw [← batch.headers, List.length_map]

theorem isChain (batch : Batch rt ctx data base children tip) :
    (base :: children).IsChain (Extends rt) := batch.accepted.isChain

theorem ne_nil (batch : Batch rt ctx data base children tip) : children ≠ [] := by
  have last := batch.last
  rintro rfl
  cases last

theorem tip_mem (batch : Batch rt ctx data base children tip) : tip ∈ children :=
  List.mem_of_getLast? batch.last

theorem getLastD_eq (batch : Batch rt ctx data base children tip)
    (default : CommittedBlockHeader) : children.getLastD default = tip := by
  rw [List.getLastD_eq_getLast?, batch.last, Option.getD_some]

theorem getLast?_commitments (batch : Batch rt ctx data base children tip) :
    (children.map (CommittedBlockHeader.getCommitHash rt)).getLast? =
      some (tip.getCommitHash rt) := by
  rw [List.getLast?_map, batch.last, Option.map_some]

end Batch

def submittedWork (data : List BlockHeader) (chainWork : Bytes32) : Exec Bytes32 :=
  data.foldlM (fun chainWork header => do
    let target ← nbitsToTarget header.nbits
    let difficulty ← getDifficulty target
    addInPlace chainWork difficulty) chainWork

/-- Whether submitted headers lead to more work than the main chain has. -/
def outweighs (main : MainState) (commitedHeader : CommittedBlockHeader)
    (data : List BlockHeader) : Bool :=
  match submittedWork data commitedHeader.chainWork with
  | .ok chainWork => gtArr chainWork main.chainWork
  | .error _ => false

theorem Accepted.submittedWork {rt : Runtime} {unixTimestamp : ℤ} {base : CommittedBlockHeader}
    {submitted : List (BlockHeader × Pubkey)} {children : List CommittedBlockHeader}
    (accepted : Accepted rt unixTimestamp base submitted children) :
    submittedWork (children.map CommittedBlockHeader.header) base.chainWork =
      .ok (children.getLastD base).chainWork := by
  induction accepted with
  | nil => rfl
  | @cons base child topic rest children checks link tail ih =>
      rcases checks.work with ⟨target, difficulty, decoded, _, quotient, chainWork⟩
      have step : addInPlace base.chainWork difficulty = .ok child.chainWork := by
        rw [addInPlace_eq, chainWork]
      simp only [BtcRelay.submittedWork, List.map_cons, List.foldlM_cons, decoded, quotient, step,
        Exec.ok_bind, List.getLastD_cons] at ih ⊢
      exact ih

theorem Batch.outweighs_iff {rt : Runtime} {ctx : Context} {data : List BlockHeader}
    {base tip : CommittedBlockHeader} {children : List CommittedBlockHeader} {main : MainState}
    (batch : Batch rt ctx data base children tip) :
    outweighs main base data = true ↔
      BigEndian.value main.chainWork < BigEndian.value tip.chainWork := by
  have work := batch.accepted.submittedWork
  rw [batch.headers, batch.getLastD_eq] at work
  rw [outweighs, work]
  exact gtArr_iff _ _

theorem batch_of_accepted {rt : Runtime} {ctx : Context} {data : List BlockHeader}
    {base : CommittedBlockHeader} {children : List CommittedBlockHeader}
    (required : requireHeaders ctx data = .ok ())
    (accepted : Accepted rt ctx.unixTimestamp base (data.zip ctx.remainingAccounts) children) :
    ∃ tip, Batch rt ctx data base children tip := by
  simp only [requireHeaders, Exec.bind_eq_ok_iff, Exec.require_eq_ok_iff] at required
  rcases required with ⟨_, nonempty, lengths⟩
  have headers : children.map CommittedBlockHeader.header = data := by
    rw [accepted.map_header, List.map_fst_zip (le_of_eq lengths)]
  have children_ne : children ≠ [] := by
    rintro rfl
    exact nonempty headers.symm
  exact ⟨children.getLast children_ne, accepted, headers,
    List.getLast?_eq_getLast_of_ne_nil children_ne⟩

end BtcRelay
