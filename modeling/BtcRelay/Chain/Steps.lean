import BtcRelay.Chain.Adoption
import BtcRelay.Program.Instructions

/-!
# The steps of the chain

`ChainStep` says all that one instruction can do to the main state and to the fork
accounts, and which committed headers it accepts. Every invariant of the chain is proved
by cases on it; the handlers are not unfolded again.
-/

namespace BtcRelay

open Exec BigEndian CircularBuffer

/-- How a submission to a fork account begins: it opens the account on a block of the main
chain or finds it open with a given tip. -/
inductive ForkOpens (rt : Runtime) (main : MainState) (account : Option ForkState)
    (base : CommittedBlockHeader) (forkId : UInt64) (init : Bool) : MainState → ForkState → Prop
  | opened {forkCounter : UInt64} (inits : init = true) (absent : account = none)
      (counter : main.forkCounter = forkId)
      (counted : forkCounter.toNat = forkId.toNat + 1)
      (committed : main.getCommitment base.blockheight = .ok (base.getCommitHash rt)) :
      ForkOpens rt main account base forkId init { main with forkCounter }
        { ForkState.zeroed with initialized := 1, startHeight := base.blockheight }
  | continued {forkState : ForkState} (continues : init = false)
      (present : account = some forkState) (initialized : forkState.initialized ≠ 0)
      (tip : base.getCommitHash rt = forkState.tipCommitHash) :
      ForkOpens rt main account base forkId init main forkState

/-- How it ends: the fork is adopted as the main chain, or its account is kept. -/
inductive ForkEnds (rt : Runtime) (main : MainState) (forkState : ForkState)
    (tipHeight : ℕ) (tip : CommittedBlockHeader) : MainState → Option ForkState → Prop
  | adopted {next : MainState} (heavier : value main.chainWork < value tip.chainWork)
      (moves : MovesTo rt main forkState.startHeight.toNat forkState.stored tip next)
      (height : next.blockHeight.toNat = tipHeight)
      (counter : next.forkCounter = main.forkCounter) :
      ForkEnds rt main forkState tipHeight tip next none
  | kept (lighter : value tip.chainWork ≤ value main.chainWork) :
      ForkEnds rt main forkState tipHeight tip main (some { forkState with
        tipBlockHash := tip.header.getBlockHash rt
        tipCommitHash := tip.getCommitHash rt })

section Fork

variable {rt : Runtime} {ctx : Context} {main next : MainState} {account : Option ForkState}
  {data : List BlockHeader} {base : CommittedBlockHeader} {forkId : UInt64} {init : Bool}

theorem forkOpens_of_openFork {loaded forkState : ForkState}
    (loads : loadFork account init = .ok loaded)
    (required : init = decide (loaded.initialized = 0))
    (opens : openFork rt main loaded base forkId = .ok (next, forkState)) :
    ForkOpens rt main account base forkId init next forkState := by
  cases init with
  | true =>
      have uninitialized : loaded.initialized = 0 := of_decide_eq_true required.symm
      simp only [openFork, if_pos uninitialized, bind_eq_ok_iff, require_eq_ok_iff,
        add64_eq_ok_iff, Except.ok.injEq, Prod.mk.injEq] at opens
      rcases opens with ⟨_, counter, forkCounter, counted, _, committed, _, rfl, rfl, rfl⟩
      cases account with
      | none =>
          simp only [loadFork, Except.ok.injEq] at loads
          subst loads
          exact .opened rfl rfl counter counted committed
      | some present => exact absurd loads (by simp [loadFork])
  | false =>
      have initialized : loaded.initialized ≠ 0 := of_decide_eq_false required.symm
      simp only [openFork, if_neg initialized, bind_eq_ok_iff, require_eq_ok_iff,
        Except.ok.injEq, Prod.mk.injEq] at opens
      rcases opens with ⟨_, tip, rfl, rfl⟩
      cases account with
      | none => exact absurd loads (by simp [loadFork])
      | some present =>
          simp only [loadFork, Except.ok.injEq] at loads
          subst loads
          exact .continued rfl rfl initialized tip

theorem submitForkHeaders_spec {events : List Event} {after : Option ForkState}
    (submitted : submitForkHeaders rt ctx main account data base forkId init =
      .ok (next, after, events)) :
    ∃ opened forkState children tip filled,
      ForkOpens rt main account base forkId init opened forkState ∧
      Batch rt ctx data base children tip ∧
      filled = { forkState with
        blockCommitments := filled.blockCommitments, length := filled.length } ∧
      filled.stored = forkState.stored ++ children.map (CommittedBlockHeader.getCommitHash rt) ∧
      filled.length.toNat = forkState.length.toNat + children.length ∧
      filled.length.toNat ≤ 250 ∧
      ForkEnds rt opened filled (base.blockheight.toNat + children.length) tip next after ∧
      (events = children.map (headerEvent rt (.storeFork forkId)) ∨
        ∃ reorg, reorg = Event.chainReorg forkId filled.startHeight
            (tip.header.getBlockHash rt) (tip.getCommitHash rt) ∧
          events = children.map (headerEvent rt (.storeFork forkId)) ++ [reorg]) := by
  simp only [submitForkHeaders, bind_eq_ok_iff, require_eq_ok_iff, Prod.exists] at submitted
  rcases submitted with ⟨_, required, loaded, loads, _, init_eq, opened, forkState, opens, last,
    run, rest⟩
  rcases submitHeaders_eq_ok_iff.mp run with ⟨children, ⟨filled, height⟩, accepted, storage, rfl⟩
  rcases batch_of_accepted required accepted with ⟨tip, batch⟩
  rcases ForkState.storeAll_spec storage with ⟨fields, stored, length, bound, heights⟩
  have commitments := batch.getLast?_commitments
  refine ⟨opened, forkState, children, tip, filled, forkOpens_of_openFork loads init_eq opens,
    batch, fields, stored, length, bound batch.ne_nil, ?_⟩
  simp only [Progress.advance, batch.getLastD_eq, List.getLastD_eq_getLast?, commitments,
    Option.getD_some, List.nil_append] at rest
  split at rest
  · rename_i heavier
    simp only [bind_eq_ok_iff, Except.ok.injEq, Prod.mk.injEq] at rest
    rcases rest with ⟨copied, copies, rfl, rfl, rfl⟩
    rcases copyCommitments_spec copies with ⟨ring, buffer⟩
    refine ⟨.adopted ((gtArr_iff _ _).mp heavier) ⟨buffer, rfl, rfl, rfl, rfl⟩ heights ?_,
      Or.inr ⟨_, rfl, rfl⟩⟩
    rw [ring]
    rfl
  · rename_i lighter
    simp only [Except.ok.injEq, Prod.mk.injEq] at rest
    rcases rest with ⟨rfl, rfl, rfl⟩
    exact ⟨.kept (not_lt.mp fun heavier => lighter ((gtArr_iff _ _).mpr heavier)), Or.inl rfl⟩

end Fork

def Event.header? : Event → Option CommittedBlockHeader
  | .storeHeader _ _ header => some header
  | .storeFork _ _ _ header => some header
  | .chainReorg .. => none

theorem filterMap_header?_storeHeader (rt : Runtime) (children : List CommittedBlockHeader) :
    (children.map (headerEvent rt .storeHeader)).filterMap Event.header? = children := by
  rw [List.filterMap_map]
  exact List.filterMap_some

theorem filterMap_header?_storeFork (rt : Runtime) (forkId : UInt64)
    (children : List CommittedBlockHeader) :
    (children.map (headerEvent rt (.storeFork forkId))).filterMap Event.header? = children := by
  rw [List.filterMap_map]
  exact List.filterMap_some

/-- All that an instruction can do to the main state and the fork accounts, with the committed
headers it accepts. -/
inductive ChainStep (rt : Runtime) (before after : Ledger) (request : Request) :
    List CommittedBlockHeader → Prop
  | created {data : BlockHeader} {blockHeight lastDiffAdjustment : UInt32}
      {chainWork : Bytes32} {prevBlockTimestamps : List.Vector UInt32 10}
      (instruction : request.instruction = .initializeRelay data blockHeight chainWork
        lastDiffAdjustment prevBlockTimestamps)
      (absent : before.mainState = none)
      (updated : after.mainState = some (initializeRelay rt data blockHeight chainWork
        lastDiffAdjustment prevBlockTimestamps).1)
      (forks : after.forkState = before.forkState) :
      ChainStep rt before after request
        [⟨chainWork, data, lastDiffAdjustment, blockHeight, prevBlockTimestamps⟩]
  | extend {main next : MainState} {data : List BlockHeader} {base tip : CommittedBlockHeader}
      {children : List CommittedBlockHeader}
      (instruction : request.instruction = .submitBlockHeaders data base)
      (present : before.mainState = some main) (updated : after.mainState = some next)
      (forks : after.forkState = before.forkState)
      (batch : Batch rt request.toContext data base children tip)
      (committed : main.getCommitment main.blockHeight = .ok (base.getCommitHash rt))
      (moves : MovesTo rt main main.blockHeight.toNat
        (children.map (CommittedBlockHeader.getCommitHash rt)) tip next)
      (height : next.blockHeight.toNat = main.blockHeight.toNat + children.length)
      (counter : next.forkCounter = main.forkCounter) :
      ChainStep rt before after request children
  | shortFork {main next : MainState} {data : List BlockHeader}
      {base tip : CommittedBlockHeader} {children : List CommittedBlockHeader}
      (instruction : request.instruction = .submitShortForkHeaders data base)
      (present : before.mainState = some main) (updated : after.mainState = some next)
      (forks : after.forkState = before.forkState)
      (batch : Batch rt request.toContext data base children tip)
      (committed : main.getCommitment base.blockheight = .ok (base.getCommitHash rt))
      (moves : MovesTo rt main base.blockheight.toNat
        (children.map (CommittedBlockHeader.getCommitHash rt)) tip next)
      (height : next.blockHeight.toNat = base.blockheight.toNat + children.length)
      (heavier : value main.chainWork < value tip.chainWork)
      (counter : next.forkCounter.toNat = main.forkCounter.toNat + 1) :
      ChainStep rt before after request children
  | fork {main opened next : MainState} {forkState filled : ForkState}
      {account : Option ForkState} {data : List BlockHeader} {base tip : CommittedBlockHeader}
      {forkId : UInt64} {init : Bool} {children : List CommittedBlockHeader}
      (instruction : request.instruction = .submitForkHeaders data base forkId init)
      (present : before.mainState = some main) (updated : after.mainState = some next)
      (forks : after.forkState = (before.setFork forkId request.signer account).forkState)
      (opens : ForkOpens rt main (before.forkState forkId request.signer) base forkId init opened
        forkState)
      (batch : Batch rt request.toContext data base children tip)
      (fields : filled = { forkState with
        blockCommitments := filled.blockCommitments, length := filled.length })
      (stored : filled.stored =
        forkState.stored ++ children.map (CommittedBlockHeader.getCommitHash rt))
      (length : filled.length.toNat = forkState.length.toNat + children.length)
      (room : filled.length.toNat ≤ 250)
      (ends : ForkEnds rt opened filled (base.blockheight.toNat + children.length) tip next
        account) :
      ChainStep rt before after request children
  | close {forkId : UInt64} (instruction : request.instruction = .closeForkAccount forkId)
      (unchanged : after.mainState = before.mainState)
      (forks : after.forkState = (before.setFork forkId request.signer none).forkState) :
      ChainStep rt before after request []
  | idle (instruction : ∀ data base forkId init,
        request.instruction ≠ .submitForkHeaders data base forkId init)
      (unchanged : after.mainState = before.mainState)
      (forks : after.forkState = before.forkState) : ChainStep rt before after request []

theorem load_eq_ok_iff {α : Type} {account : Option α} {content : α} :
    load account = .ok content ↔ account = some content := by
  cases account <;> simp [load]

theorem requireAbsent_eq_ok_iff {α : Type} {account : Option α} {result : Unit} :
    requireAbsent account = .ok result ↔ account = none := by
  cases account <;> simp [requireAbsent]

theorem requireSystemAccount_eq_ok_iff {ledger : Ledger} {key : Pubkey} {result : Unit} :
    requireSystemAccount ledger key = .ok result ↔ ledger.owner key = systemProgram := by
  simp only [requireSystemAccount]
  split <;> simp_all

/-- Every successful instruction is a step of the chain. -/
theorem chainStep_of_process {rt : Runtime} {before after : Ledger} {request : Request}
    {events : List Event} (success : process rt before request = .ok (after, events)) :
    ChainStep rt before after request (events.filterMap Event.header?) := by
  generalize instruction : request.instruction = called at success
  cases called with
  | initializeRelay data blockHeight chainWork lastDiffAdjustment prevBlockTimestamps =>
      simp only [process, instruction, bind_eq_ok_iff, requireAbsent_eq_ok_iff, Except.ok.injEq,
        Prod.mk.injEq] at success
      rcases success with ⟨_, absent, _, _, rfl, rfl⟩
      exact .created instruction absent rfl rfl
  | submitBlockHeaders data base =>
      simp only [process, instruction, bind_eq_ok_iff, load_eq_ok_iff, Except.ok.injEq,
        Prod.exists, Prod.mk.injEq] at success
      rcases success with ⟨main, present, next, _, submitted, rfl, rfl⟩
      rcases submitBlockHeaders_spec submitted with
        ⟨children, tip, batch, committed, moves, height, counter, rfl⟩
      rw [filterMap_header?_storeHeader]
      exact .extend instruction present rfl rfl batch committed moves height counter
  | submitShortForkHeaders data base =>
      simp only [process, instruction, bind_eq_ok_iff, load_eq_ok_iff, Except.ok.injEq,
        Prod.exists, Prod.mk.injEq] at success
      rcases success with ⟨main, present, next, _, submitted, rfl, rfl⟩
      rcases submitShortForkHeaders_spec submitted with
        ⟨children, tip, batch, committed, moves, height, heavier, counter, rfl⟩
      rw [filterMap_header?_storeFork]
      exact .shortFork instruction present rfl rfl batch committed moves height heavier counter
  | submitForkHeaders data base forkId init =>
      simp only [process, instruction, bind_eq_ok_iff, load_eq_ok_iff, Except.ok.injEq,
        Prod.exists, Prod.mk.injEq] at success
      rcases success with ⟨main, present, next, account, emitted, submitted, rfl, rfl⟩
      rcases submitForkHeaders_spec submitted with ⟨opened, forkState, children, tip, filled,
        opens, batch, fields, stored, length, room, ends, order⟩
      have accepted : emitted.filterMap Event.header? = children := by
        rcases order with rfl | ⟨reorg, rfl, rfl⟩
        · exact filterMap_header?_storeFork rt forkId children
        · rw [List.filterMap_append, filterMap_header?_storeFork]
          exact List.append_nil children
      rw [accepted]
      exact .fork instruction present rfl rfl opens batch fields stored length room ends
  | closeForkAccount forkId =>
      simp only [process, instruction, bind_eq_ok_iff, Except.ok.injEq, Prod.mk.injEq] at success
      rcases success with ⟨_, _, rfl, rfl⟩
      exact .close instruction rfl rfl
  | verifySmallTx txBytes confirmations txIndex reversedMerkleProof base mintReceiver =>
      simp only [process, instruction, bind_eq_ok_iff, Except.ok.injEq, Prod.mk.injEq] at success
      rcases success with ⟨_, _, _, _, _, _, _, _, rfl, rfl⟩
      exact .idle (by simp [instruction]) rfl rfl
  | blockHeight value operation =>
      simp only [process, instruction, bind_eq_ok_iff, Except.ok.injEq, Prod.mk.injEq] at success
      rcases success with ⟨_, _, _, _, rfl, rfl⟩
      exact .idle (by simp [instruction]) rfl rfl
  | deposit amount =>
      simp only [process, deposit, instruction, bind_eq_ok_iff, Except.ok.injEq,
        Prod.mk.injEq] at success
      rcases success with ⟨_, ⟨_, _, _, _, _, _, rfl⟩, rfl, rfl⟩
      exact .idle (by simp [instruction]) rfl rfl
  | initBigTxVerify txId txSize confirmations txIndex reversedMerkleProof base =>
      simp only [process, instruction, bind_eq_ok_iff, Except.ok.injEq, Prod.mk.injEq] at success
      rcases success with ⟨_, _, _, _, _, _, _, _, _, _, _, _, rfl, rfl⟩
      exact .idle (by simp [instruction]) rfl rfl
  | storeTxBytes txId bytes =>
      simp only [process, instruction, bind_eq_ok_iff, Except.ok.injEq, Prod.mk.injEq] at success
      rcases success with ⟨_, _, _, _, rfl, rfl⟩
      exact .idle (by simp [instruction]) rfl rfl
  | finalizeTxProcessing txId mintReceiver =>
      simp only [process, instruction, bind_eq_ok_iff, Except.ok.injEq, Prod.mk.injEq] at success
      rcases success with ⟨_, _, _, _, _, _, _, _, rfl, rfl⟩
      exact .idle (by simp [instruction]) rfl rfl

end BtcRelay
