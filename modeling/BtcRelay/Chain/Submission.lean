import BtcRelay.Chain.HeaderChecks

/-!
# The submission loop

The loop of the three submission handlers does two independent things: it accepts the
submitted headers one after the other on top of a base, and it stores the commitment of
each at the next height. `Accepted` and `storeAll` describe the two parts, and
`submitHeaders_eq_ok_iff` says that the loop is exactly their conjunction.
-/

namespace BtcRelay

open Exec

/-- The headers accepted one after the other on top of a committed header. -/
inductive Accepted (rt : Runtime) (unixTimestamp : ℤ) :
    CommittedBlockHeader → List (BlockHeader × Pubkey) → List CommittedBlockHeader → Prop
  | nil {base : CommittedBlockHeader} : Accepted rt unixTimestamp base [] []
  | cons {base child : CommittedBlockHeader} {topic : Pubkey}
      {rest : List (BlockHeader × Pubkey)} {children : List CommittedBlockHeader}
      (checks : HeaderChecks rt base topic unixTimestamp child)
      (link : base.header.getBlockHash rt = child.header.reversedPrevBlockhash)
      (tail : Accepted rt unixTimestamp child rest children) :
      Accepted rt unixTimestamp base ((child.header, topic) :: rest) (child :: children)

section

variable {σ : Type}

/-- Stores the commitments of consecutive headers, from the height after the given one. -/
def storeAll (rt : Runtime) (store : σ → UInt32 → Bytes32 → Exec σ) :
    σ → UInt32 → List CommittedBlockHeader → Exec (σ × UInt32)
  | account, blockHeight, [] => .ok (account, blockHeight)
  | account, blockHeight, child :: children => do
      let blockHeight ← add32 blockHeight 1
      let account ← store account blockHeight (child.getCommitHash rt)
      storeAll rt store account blockHeight children

def headerEvent (rt : Runtime) (event : Bytes32 → Bytes32 → CommittedBlockHeader → Event)
    (child : CommittedBlockHeader) : Event :=
  event (child.header.getBlockHash rt) (child.getCommitHash rt) child

/-- The loop variables after some headers have been accepted and stored. -/
def Progress.advance (rt : Runtime) (event : Bytes32 → Bytes32 → CommittedBlockHeader → Event)
    (progress : Progress σ) (children : List CommittedBlockHeader)
    (stored : σ × UInt32) : Progress σ where
  lastCommitedHeader := children.getLastD progress.lastCommitedHeader
  lastBlockHash := (children.getLastD progress.lastCommitedHeader).header.getBlockHash rt
  blockHeight := stored.2
  blockCommitHash :=
    (children.map (CommittedBlockHeader.getCommitHash rt)).getLastD progress.blockCommitHash
  account := stored.1
  events := progress.events ++ children.map (headerEvent rt event)

theorem Progress.advance_advance (rt : Runtime)
    (event : Bytes32 → Bytes32 → CommittedBlockHeader → Event) (progress : Progress σ)
    (child : CommittedBlockHeader) (children : List CommittedBlockHeader)
    (stored final : σ × UInt32) :
    (progress.advance rt event [child] stored).advance rt event children final =
      progress.advance rt event (child :: children) final := by
  simp only [Progress.advance, List.map_cons, List.map_nil, List.getLastD_cons, List.getLastD_nil,
    List.append_assoc, List.cons_append, List.nil_append]

theorem submitHeader_eq_ok_iff {rt : Runtime} {unixTimestamp : ℤ}
    {store : σ → UInt32 → Bytes32 → Exec σ}
    {event : Bytes32 → Bytes32 → CommittedBlockHeader → Event} {progress next : Progress σ}
    {header : BlockHeader} {topic : Pubkey} :
    submitHeader rt unixTimestamp store event progress (header, topic) = .ok next ↔
      ∃ child stored, HeaderChecks rt progress.lastCommitedHeader topic unixTimestamp child ∧
        progress.lastBlockHash = child.header.reversedPrevBlockhash ∧ child.header = header ∧
        storeAll rt store progress.account progress.blockHeight [child] = .ok stored ∧
        next = progress.advance rt event [child] stored := by
  simp only [submitHeader, storeAll, bind_eq_ok_iff, require_eq_ok_iff, Except.ok.injEq,
    Prod.exists, verifyHeader_eq_ok_iff, Prod.mk.injEq]
  constructor
  · rintro ⟨_, link, blockHeight, heightEq, child, _, ⟨checks, rfl, rfl⟩, account, stored, rfl⟩
    exact ⟨child, account, blockHeight, checks, link, rfl,
      ⟨blockHeight, heightEq, account, stored, rfl, rfl⟩, rfl⟩
  · rintro ⟨child, account, blockHeight, checks, link, rfl,
      ⟨_, heightEq, _, stored, rfl, rfl⟩, rfl⟩
    exact ⟨(), link, _, heightEq, child, _, ⟨checks, rfl, rfl⟩, _, stored, rfl⟩

theorem foldlM_submitHeader_eq_ok_iff {rt : Runtime} {unixTimestamp : ℤ}
    {store : σ → UInt32 → Bytes32 → Exec σ}
    {event : Bytes32 → Bytes32 → CommittedBlockHeader → Event}
    {submitted : List (BlockHeader × Pubkey)} {progress last : Progress σ}
    (hashed : progress.lastBlockHash = progress.lastCommitedHeader.header.getBlockHash rt) :
    submitted.foldlM (submitHeader rt unixTimestamp store event) progress = .ok last ↔
      ∃ children stored, Accepted rt unixTimestamp progress.lastCommitedHeader submitted children ∧
        storeAll rt store progress.account progress.blockHeight children = .ok stored ∧
        last = progress.advance rt event children stored := by
  induction submitted generalizing progress with
  | nil =>
      simp only [List.foldlM_nil, pure_eq_ok, Except.ok.injEq]
      constructor
      · rintro rfl
        refine ⟨[], (progress.account, progress.blockHeight), .nil, rfl, ?_⟩
        simp [Progress.advance, ← hashed]
      · rintro ⟨children, stored, accepted, storage, rfl⟩
        cases accepted
        simp only [storeAll, Except.ok.injEq] at storage
        subst storage
        simp [Progress.advance, ← hashed]
  | cons first rest ih =>
      rcases first with ⟨header, topic⟩
      simp only [List.foldlM_cons, bind_eq_ok_iff, submitHeader_eq_ok_iff]
      constructor
      · rintro ⟨next, ⟨child, stored, checks, link, rfl, storage, rfl⟩, run⟩
        rcases (ih rfl).mp run with ⟨children, final, accepted, storageRest, rfl⟩
        simp only [storeAll, bind_eq_ok_iff, Except.ok.injEq] at storage
        rcases storage with ⟨height, heightEq, account, store_eq, rfl⟩
        refine ⟨child :: children, final, .cons checks (by rw [← hashed, link]) accepted, ?_,
          Progress.advance_advance rt event progress child children _ final⟩
        simp only [storeAll, heightEq, ok_bind, store_eq]
        exact storageRest
      · rintro ⟨children, stored, accepted, storage, rfl⟩
        cases accepted with
        | cons checks link accepted =>
            rename_i child children
            simp only [storeAll, bind_eq_ok_iff] at storage
            rcases storage with ⟨height, heightEq, account, store_eq, storage⟩
            refine ⟨_, ⟨child, (account, height), checks, by rw [hashed, link], rfl, ?_, rfl⟩, ?_⟩
            · simp only [storeAll, heightEq, ok_bind, store_eq]
            · apply (ih rfl).mpr
              exact ⟨children, stored, accepted, storage,
                (Progress.advance_advance rt event progress child children _ stored).symm⟩

end

end BtcRelay
