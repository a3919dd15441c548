import BtcRelay.Chain.ForkPaths

/-!
# The event log

The program reports each header it stores, and each reorganisation by a long fork, in
events that indexers read. An `Observer` sees nothing but the events of the successful
transactions: neither the instructions nor the accounts. It keeps a main state of its own
and the blocks reported for each fork id, and it moves its main state to a reported fork
when that has more work. The file proves that it always agrees with the program.
-/

namespace BtcRelay

open Exec BigEndian History

/-- A block as an event reports it. -/
structure Report where
  blockHash : Bytes32
  commitHash : Bytes32
  header : CommittedBlockHeader

def Event.report? : Event → Option Report
  | .storeHeader blockHash commitHash header => some { blockHash, commitHash, header }
  | .storeFork _ blockHash commitHash header => some { blockHash, commitHash, header }
  | .chainReorg .. => none

def CommittedBlockHeader.report (rt : Runtime) (committed : CommittedBlockHeader) : Report where
  blockHash := committed.header.getBlockHash rt
  commitHash := committed.getCommitHash rt
  header := committed

structure Observer where
  mainState : Option MainState
  forks : UInt64 → List Report

namespace Observer

def initial : Observer where
  mainState := none
  forks _ := []

/-- The main state that the first report starts. -/
def started (first : Report) : MainState where
  startHeight := first.header.blockheight
  lastDiffAdjustment := first.header.lastDiffAdjustment
  blockHeight := first.header.blockheight
  totalBlocks := 1
  forkCounter := 0
  tipCommitHash := first.commitHash
  tipBlockHash := first.blockHash
  chainWork := first.header.chainWork
  blockCommitments := first.commitHash ::ᵥ .replicate 249 emptyArray

/-- Stores reported blocks one after the other, from the height after the given one. -/
def storeReports : MainState → UInt32 → List Report → Exec (MainState × UInt32)
  | main, height, [] => .ok (main, height)
  | main, height, report :: reports => do
      let height ← add32 height 1
      let main ← storeMain main height report.commitHash
      storeReports main height reports

/-- A report under the next fork id means that the program has assigned it. -/
def countFork (main : MainState) (forkId : UInt64) : Exec MainState :=
  if main.forkCounter = forkId then do
    let forkCounter ← add64 forkId 1
    .ok { main with forkCounter }
  else .ok main

def observeHeaders (observer : Observer) (reports : List Report) (tip : Report) : Exec Observer :=
  match observer.mainState with
  | none => .ok { observer with mainState := some (started tip) }
  | some main => do
      let (ring, height) ← storeReports main main.blockHeight reports
      .ok { observer with
        mainState := some (ring.updateTip tip.header height tip.commitHash tip.blockHash) }

def observeFork (observer : Observer) (forkId : UInt64) (reports : List Report) (tip : Report) :
    Exec Observer := do
  let main ← load observer.mainState
  let main ← countFork main forkId
  let blocks := observer.forks forkId ++ reports
  let forks := Function.update observer.forks forkId blocks
  if gtArr tip.header.chainWork main.chainWork then do
    let first ← unwrap blocks.head?
    let startHeight ← sub32 first.header.blockheight 1
    let (ring, _) ← storeReports main startHeight blocks
    .ok { forks
          mainState := some
            (ring.updateTip tip.header tip.header.blockheight tip.commitHash tip.blockHash) }
  else .ok { forks, mainState := some main }

/-- What the observer makes of the events of one transaction. -/
def observe (observer : Observer) (events : List Event) : Exec Observer :=
  let reports := events.filterMap Event.report?
  match events.head?, reports.getLast? with
  | some (.storeHeader ..), some tip => observer.observeHeaders reports tip
  | some (.storeFork forkId _ _ _), some tip => observer.observeFork forkId reports tip
  | _, _ => .ok observer

end Observer

/-- The events of the transactions of a run, the oldest first. -/
def eventLog (steps : List RelayStep) : List (List Event) :=
  (steps.map Step.output).reverse

/-- What a successful instruction stores in the main state and in the fork accounts, with the
events that it emits. -/
inductive Emits (rt : Runtime) (before after : Ledger) (signer : Pubkey) : List Event → Prop
  | created {first : CommittedBlockHeader} (absent : before.mainState = none)
      (updated : after.mainState = some (Observer.started (first.report rt)))
      (forks : after.forkState = before.forkState) :
      Emits rt before after signer [headerEvent rt .storeHeader first]
  | extended {main ring : MainState} {children : List CommittedBlockHeader}
      {tip : CommittedBlockHeader} {height : UInt32} (present : before.mainState = some main)
      (last : children.getLast? = some tip)
      (stored : storeAll rt storeMain main main.blockHeight children = .ok (ring, height))
      (updated : after.mainState = some (ring.moveTo rt tip height))
      (forks : after.forkState = before.forkState) :
      Emits rt before after signer (children.map (headerEvent rt .storeHeader))
  | shortFork {main ring : MainState} {base tip : CommittedBlockHeader}
      {children : List CommittedBlockHeader} {height : UInt32} {counter : UInt64}
      (present : before.mainState = some main) (last : children.getLast? = some tip)
      (chain : (base :: children).IsChain (Extends rt))
      (counted : add64 main.forkCounter 1 = .ok counter)
      (stored : storeAll rt storeMain (main.countFork counter) base.blockheight children =
        .ok (ring, height))
      (heavier : gtArr tip.chainWork main.chainWork = true)
      (updated : after.mainState = some (ring.moveTo rt tip height))
      (forks : after.forkState = before.forkState) :
      Emits rt before after signer (children.map (headerEvent rt (.storeFork main.forkCounter)))
  | keptFork {main opened : MainState} {forkState filled : ForkState}
      {base tip : CommittedBlockHeader} {children : List CommittedBlockHeader} {forkId : UInt64}
      {init : Bool} {height : UInt32} (present : before.mainState = some main)
      (opens : ForkOpens rt main (before.forkState forkId signer) base forkId init opened forkState)
      (last : children.getLast? = some tip) (chain : (base :: children).IsChain (Extends rt))
      (stored : storeAll rt (fun forkState _ => forkState.storeBlockCommitment) forkState
        base.blockheight children = .ok (filled, height))
      (lighter : gtArr tip.chainWork opened.chainWork = false)
      (updated : after.mainState = some opened)
      (forks : after.forkState =
        (before.setFork forkId signer (some (filled.withTip rt tip))).forkState) :
      Emits rt before after signer (children.map (headerEvent rt (.storeFork forkId)))
  | adoptedFork {main opened copied : MainState} {forkState filled : ForkState}
      {base tip : CommittedBlockHeader} {children : List CommittedBlockHeader} {forkId : UInt64}
      {init : Bool} {height : UInt32} {reorg : Event} (present : before.mainState = some main)
      (opens : ForkOpens rt main (before.forkState forkId signer) base forkId init opened forkState)
      (last : children.getLast? = some tip) (chain : (base :: children).IsChain (Extends rt))
      (stored : storeAll rt (fun forkState _ => forkState.storeBlockCommitment) forkState
        base.blockheight children = .ok (filled, height))
      (heavier : gtArr tip.chainWork opened.chainWork = true)
      (copies : copyCommitments opened filled = .ok copied)
      (reported : reorg.report? = none)
      (updated : after.mainState = some (copied.moveTo rt tip height))
      (forks : after.forkState = (before.setFork forkId signer none).forkState) :
      Emits rt before after signer
        (children.map (headerEvent rt (.storeFork forkId)) ++ [reorg])
  | quiet (unchanged : after.mainState = before.mainState)
      (forks : ∀ forkId owner forkState, after.forkState forkId owner = some forkState →
        before.forkState forkId owner = some forkState) : Emits rt before after signer []

section

variable {rt : Runtime} {ctx : Context} {before after : Ledger} {request : Request}
  {events : List Event}

/-- The loop of a submission stores the headers it accepts and reports each of them. -/
theorem exists_storeAll_of_submitHeaders {σ : Type} {store : σ → UInt32 → Bytes32 → Exec σ}
    {event : Bytes32 → Bytes32 → CommittedBlockHeader → Event} {data : List BlockHeader}
    {base : CommittedBlockHeader} {height : UInt32} {account : σ} {last : Progress σ}
    (required : requireHeaders ctx data = .ok ())
    (submitted : submitHeaders rt ctx store event data base height account = .ok last) :
    ∃ children tip final, Batch rt ctx data base children tip ∧
      storeAll rt store account height children = .ok final ∧
      last = { lastCommitedHeader := tip
               lastBlockHash := tip.header.getBlockHash rt
               blockHeight := final.2
               blockCommitHash := tip.getCommitHash rt
               account := final.1
               events := children.map (headerEvent rt event) } := by
  rcases submitHeaders_eq_ok_iff.mp submitted with ⟨children, final, accepted, stored, rfl⟩
  rcases batch_of_accepted required accepted with ⟨tip, batch⟩
  refine ⟨children, tip, final, batch, stored, ?_⟩
  simp only [Progress.advance, batch.getLastD_eq, List.getLastD_eq_getLast?,
    batch.getLast?_commitments, Option.getD_some, List.nil_append]

theorem emits_of_submitBlockHeaders {main next : MainState} {data : List BlockHeader}
    {base : CommittedBlockHeader} {signer : Pubkey} (present : before.mainState = some main)
    (submitted : submitBlockHeaders rt ctx main data base = .ok (next, events)) :
    Emits rt before { before with mainState := some next } signer events := by
  simp only [submitBlockHeaders, bind_eq_ok_iff, require_eq_ok_iff, Except.ok.injEq,
    Prod.mk.injEq] at submitted
  rcases submitted with ⟨_, required, _, _, _, _, last, run, rfl, rfl⟩
  rcases exists_storeAll_of_submitHeaders required run with
    ⟨children, tip, ⟨ring, height⟩, batch, stored, rfl⟩
  exact .extended present batch.last stored rfl rfl

theorem emits_of_submitShortForkHeaders {main next : MainState} {data : List BlockHeader}
    {base : CommittedBlockHeader} {signer : Pubkey} (present : before.mainState = some main)
    (submitted : submitShortForkHeaders rt ctx main data base = .ok (next, events)) :
    Emits rt before { before with mainState := some next } signer events := by
  simp only [submitShortForkHeaders, bind_eq_ok_iff, require_eq_ok_iff, Except.ok.injEq,
    Prod.mk.injEq] at submitted
  rcases submitted with
    ⟨_, required, _, _, _, _, last, run, _, heavier, counter, counted, rfl, rfl⟩
  rcases exists_storeAll_of_submitHeaders required run with
    ⟨children, tip, ⟨ring, height⟩, batch, stored, rfl⟩
  exact .shortFork present batch.last batch.isChain counted
    (storeAll_countFork_iff.mpr ⟨ring, stored, rfl⟩) heavier rfl rfl

theorem emits_of_submitForkHeaders {main next : MainState} {data : List BlockHeader}
    {base : CommittedBlockHeader} {signer : Pubkey} {forkId : UInt64} {init : Bool}
    {account : Option ForkState} (present : before.mainState = some main)
    (submitted : submitForkHeaders rt ctx main (before.forkState forkId signer) data base forkId
      init = .ok (next, account, events)) :
    Emits rt before { before.setFork forkId signer account with mainState := some next } signer
      events := by
  simp only [submitForkHeaders, bind_eq_ok_iff, require_eq_ok_iff, Prod.exists] at submitted
  rcases submitted with ⟨_, required, loaded, loads, _, init_eq, opened, forkState, opens, last,
    run, rest⟩
  rcases exists_storeAll_of_submitHeaders required run with
    ⟨children, tip, ⟨filled, height⟩, batch, stored, rfl⟩
  have opening := forkOpens_of_openFork loads init_eq opens
  split at rest
  · rename_i heavier
    simp only [bind_eq_ok_iff, Except.ok.injEq, Prod.mk.injEq] at rest
    rcases rest with ⟨copied, copies, rfl, rfl, rfl⟩
    exact .adoptedFork present opening batch.last batch.isChain stored heavier copies rfl rfl rfl
  · rename_i lighter
    simp only [Except.ok.injEq, Prod.mk.injEq] at rest
    rcases rest with ⟨rfl, rfl, rfl⟩
    exact .keptFork present opening batch.last batch.isChain stored
      (Bool.eq_false_of_not_eq_true lighter) rfl rfl

/-- Every successful instruction emits the events of what it stores. -/
theorem emits_of_process (success : process rt before request = .ok (after, events)) :
    Emits rt before after request.signer events := by
  generalize instruction : request.instruction = called at success
  cases called with
  | initializeRelay data blockHeight chainWork lastDiffAdjustment prevBlockTimestamps =>
      simp only [process, instruction, bind_eq_ok_iff, requireAbsent_eq_ok_iff, Except.ok.injEq,
        Prod.mk.injEq] at success
      rcases success with ⟨_, absent, _, _, rfl, rfl⟩
      exact @Emits.created rt before _ request.signer
        ⟨chainWork, data, lastDiffAdjustment, blockHeight, prevBlockTimestamps⟩ absent rfl rfl
  | submitBlockHeaders data base =>
      simp only [process, instruction, bind_eq_ok_iff, load_eq_ok_iff, Except.ok.injEq,
        Prod.exists, Prod.mk.injEq] at success
      rcases success with ⟨main, present, next, _, submitted, rfl, rfl⟩
      exact emits_of_submitBlockHeaders present submitted
  | submitShortForkHeaders data base =>
      simp only [process, instruction, bind_eq_ok_iff, load_eq_ok_iff, Except.ok.injEq,
        Prod.exists, Prod.mk.injEq] at success
      rcases success with ⟨main, present, next, _, submitted, rfl, rfl⟩
      exact emits_of_submitShortForkHeaders present submitted
  | submitForkHeaders data base forkId init =>
      simp only [process, instruction, bind_eq_ok_iff, load_eq_ok_iff, Except.ok.injEq,
        Prod.exists, Prod.mk.injEq] at success
      rcases success with ⟨main, present, next, account, _, submitted, rfl, rfl⟩
      exact emits_of_submitForkHeaders present submitted
  | closeForkAccount forkId =>
      simp only [process, instruction, bind_eq_ok_iff, Except.ok.injEq, Prod.mk.injEq] at success
      rcases success with ⟨_, _, rfl, rfl⟩
      refine .quiet ?_ ?_
      · rfl
      intro id owner forkState found
      simp only [Ledger.setFork] at found
      split at found
      · cases found
      · exact found
  | verifySmallTx txBytes confirmations txIndex reversedMerkleProof base mintReceiver =>
      simp only [process, instruction, bind_eq_ok_iff, Except.ok.injEq, Prod.mk.injEq] at success
      rcases success with ⟨_, _, _, _, _, _, _, _, rfl, rfl⟩
      exact .quiet rfl fun _ _ _ => id
  | blockHeight value operation =>
      simp only [process, instruction, bind_eq_ok_iff, Except.ok.injEq, Prod.mk.injEq] at success
      rcases success with ⟨_, _, _, _, rfl, rfl⟩
      exact .quiet rfl fun _ _ _ => id
  | deposit amount =>
      simp only [process, deposit, instruction, bind_eq_ok_iff, Except.ok.injEq,
        Prod.mk.injEq] at success
      rcases success with ⟨_, ⟨_, _, _, _, _, _, rfl⟩, rfl, rfl⟩
      exact .quiet rfl fun _ _ _ => id
  | initBigTxVerify txId txSize confirmations txIndex reversedMerkleProof base =>
      simp only [process, instruction, bind_eq_ok_iff, Except.ok.injEq, Prod.mk.injEq] at success
      rcases success with ⟨_, _, _, _, _, _, _, _, _, _, _, _, rfl, rfl⟩
      exact .quiet rfl fun _ _ _ => id
  | storeTxBytes txId bytes =>
      simp only [process, instruction, bind_eq_ok_iff, Except.ok.injEq, Prod.mk.injEq] at success
      rcases success with ⟨_, _, _, _, rfl, rfl⟩
      exact .quiet rfl fun _ _ _ => id
  | finalizeTxProcessing txId mintReceiver =>
      simp only [process, instruction, bind_eq_ok_iff, Except.ok.injEq, Prod.mk.injEq] at success
      rcases success with ⟨_, _, _, _, _, _, _, _, rfl, rfl⟩
      exact .quiet rfl fun _ _ _ => id

end

/-- A fork account holds the commitments of the blocks reported under its id. -/
structure ForkShown (rt : Runtime) (forkState : ForkState) (reports : List Report) : Prop where
  blocks : ∃ first rest, reports = (first :: rest).map (CommittedBlockHeader.report rt) ∧
    first.blockheight.toNat = forkState.startHeight.toNat + 1 ∧
    ForkStores rt forkState forkState.startHeight (first :: rest)

/-- An observer agrees with the accounts of the program. -/
structure Agrees (rt : Runtime) (ledger : Ledger) (observer : Observer) : Prop where
  mainState : observer.mainState = ledger.mainState
  unused : ∀ forkId, (∀ main, ledger.mainState = some main → main.forkCounter ≤ forkId) →
    observer.forks forkId = [] ∧ ∀ owner, ledger.forkState forkId owner = none
  sole : ∀ forkId owner other, ledger.forkState forkId owner ≠ none →
    ledger.forkState forkId other ≠ none → owner = other
  accounts : ∀ forkId owner forkState, ledger.forkState forkId owner = some forkState →
    ForkShown rt forkState (observer.forks forkId)

section

variable {rt : Runtime} {main ring next : MainState} {forkState filled : ForkState}
  {base tip : CommittedBlockHeader} {children blocks : List CommittedBlockHeader}
  {height last : UInt32} {forkId : UInt64} {observer : Observer}

theorem filterMap_report? {event : Bytes32 → Bytes32 → CommittedBlockHeader → Event}
    (reports : ∀ child, (headerEvent rt event child).report? = some (child.report rt)) :
    (children.map (headerEvent rt event)).filterMap Event.report? =
      children.map (CommittedBlockHeader.report rt) := by
  rw [List.filterMap_map]
  have same : Event.report? ∘ headerEvent rt event = some ∘ CommittedBlockHeader.report rt := by
    funext child
    exact reports child
  rw [same, List.filterMap_eq_map]

theorem storeReports_eq (main : MainState) (height : UInt32)
    (children : List CommittedBlockHeader) :
    Observer.storeReports main height (children.map (CommittedBlockHeader.report rt)) =
      storeAll rt storeMain main height children := by
  induction children generalizing main height with
  | nil => rfl
  | cons child rest ih =>
      simp only [List.map_cons, Observer.storeReports, storeAll, ih]
      rfl

theorem observe_storeHeader (rt : Runtime) (observer : Observer)
    (last : children.getLast? = some tip) :
    observer.observe (children.map (headerEvent rt .storeHeader)) =
      observer.observeHeaders (children.map (CommittedBlockHeader.report rt)) (tip.report rt) := by
  have reports : ∀ child, (headerEvent rt .storeHeader child).report? = some (child.report rt) :=
    fun _ => rfl
  cases children with
  | nil => cases last
  | cons first rest =>
      simp only [Observer.observe, filterMap_report? reports, List.getLast?_map, last,
        Option.map_some]
      rfl

theorem observe_storeFork (rt : Runtime) (observer : Observer) (forkId : UInt64)
    {more : List Event} (last : children.getLast? = some tip)
    (silent : more.filterMap Event.report? = []) :
    observer.observe (children.map (headerEvent rt (.storeFork forkId)) ++ more) =
      observer.observeFork forkId (children.map (CommittedBlockHeader.report rt))
        (tip.report rt) := by
  have reports : ∀ child, (headerEvent rt (.storeFork forkId) child).report? =
    some (child.report rt) := fun _ => rfl
  cases children with
  | nil => cases last
  | cons first rest =>
      simp only [Observer.observe, List.filterMap_append, silent, List.append_nil,
        filterMap_report? reports, List.getLast?_map, last, Option.map_some]
      rfl

theorem forkStores_opened (startHeight : UInt32) :
    ForkStores rt { ForkState.zeroed with initialized := 1, startHeight } startHeight [] where
  initialized := by simp
  startHeight := rfl
  stored := rfl
  length := rfl

/-- A copy that succeeds stores all blocks of the fork in the ring buffer. -/
theorem exists_storeAll_of_copyCommitments {copied : MainState}
    (stores : ForkStores rt forkState height blocks) (nonempty : blocks ≠ [])
    (room : blocks.length ≤ 250) (copies : copyCommitments main forkState = .ok copied) :
    ∃ last, storeAll rt storeMain main height blocks = .ok (copied, last) := by
  have positive := List.length_pos_iff.mpr nonempty
  have heights : height.toNat + blocks.length < 2 ^ 32 := by
    -- the last round of the copy has added up the height of the last block
    have one : UInt32.toNat 1 = 1 := rfl
    have split : forkState.length.toNat = (blocks.length - 1) + 1 := by
      rw [stores.length]
      omega
    have small : (UInt32.ofNat (blocks.length - 1)).toNat = blocks.length - 1 :=
      UInt32.toNat_ofNat_of_lt' (by simp only [UInt32.size]; omega)
    simp only [copyCommitments, split, List.range_succ, List.foldlM_append, List.foldlM_cons,
      List.foldlM_nil, bind_eq_ok_iff, add32_eq_ok_iff, stores.startHeight, one, small] at copies
    rcases copies with ⟨_, _, _, ⟨next, nextEq, final, finalEq, _⟩, _⟩
    have bound := final.toNat_lt
    omega
  rw [copyCommitments_eq stores heights room] at copies
  simp only [bind_eq_ok_iff, Prod.exists, Except.ok.injEq] at copies
  rcases copies with ⟨_, last, stored, rfl⟩
  exact ⟨last, stored⟩

theorem eq_of_storeAll_storeMain (chain : (base :: children).IsChain (Extends rt))
    (last : children.getLast? = some tip)
    (stored : storeAll rt storeMain main base.blockheight children = .ok (ring, height)) :
    height = tip.blockheight := by
  have counted := (storeAll_storeMain_spec stored).2.2
  have heights := height_getLast?_of_isChain chain last
  apply UInt32.toNat_inj.mp
  omega

namespace Agrees

variable {before after : Ledger} {opened : MainState} {init : Bool} {reports : List Report}
  {signer : Pubkey}

/-- The observer keeps up with a submission that reports blocks of one fork. -/
theorem store (agrees : Agrees rt before observer) (signer : Pubkey)
    (account : Option ForkState) (present : before.mainState = some main)
    (updated : after.mainState = some next) (counted : main.forkCounter ≤ next.forkCounter)
    (used : forkId < next.forkCounter)
    (forks : after.forkState = (before.setFork forkId signer account).forkState)
    (others : ∀ owner, before.forkState forkId owner ≠ none → owner = signer)
    (shown : ∀ forkState, account = some forkState → ForkShown rt forkState reports) :
    Agrees rt after { mainState := some next
                      forks := Function.update observer.forks forkId reports } where
  mainState := updated.symm
  unused := by
    intro id above
    have high := above next updated
    have other : id ≠ forkId := by
      rintro rfl
      exact UInt64.lt_irrefl _ (UInt64.lt_of_lt_of_le used high)
    rcases agrees.unused id (by
      intro earlier here
      cases present.symm.trans here
      exact UInt64.le_trans counted high) with ⟨unreported, absent⟩
    refine ⟨?_, ?_⟩
    · exact (Function.update_of_ne other _ _).trans unreported
    · intro owner
      simp only [forks, Ledger.setFork, other, false_and, if_false]
      exact absent owner
  sole := by
    intro id owner another here there
    rw [forks] at here there
    by_cases same : id = forkId
    · subst same
      have owned {who : Pubkey}
          (accountOpen : (before.setFork id signer account).forkState id who ≠ none) :
          who = signer := by
        rcases ne_none_of_setFork accountOpen with earlier | ⟨_, mine, _⟩
        · exact others who earlier
        · exact mine
      rw [owned here, owned there]
    · simp only [Ledger.setFork, same, false_and, if_false] at here there
      exact agrees.sole id owner another here there
  accounts := by
    intro id owner forkState found
    simp only [forks, Ledger.setFork] at found
    split at found
    · rename_i same
      rcases same with ⟨rfl, rfl⟩
      simp only [Function.update_self]
      exact shown forkState found
    · rename_i different
      by_cases same : id = forkId
      · subst same
        refine absurd ⟨rfl, others owner ?_⟩ different
        rw [found]
        simp
      · simp only [Function.update_of_ne same]
        exact agrees.accounts id owner forkState found

/-- A submission to a fork account starts from what has been reported under its id. -/
theorem opens (agrees : Agrees rt before observer) (present : before.mainState = some main)
    (opens : ForkOpens rt main (before.forkState forkId signer) base forkId init opened forkState)
    (chain : (base :: children).IsChain (Extends rt)) (nonempty : children ≠ [])
    (stored : storeAll rt (fun forkState _ => forkState.storeBlockCommitment) forkState height
      children = .ok (filled, last)) :
    Observer.countFork main forkId = .ok opened ∧ main.forkCounter ≤ opened.forkCounter ∧
      forkId < opened.forkCounter ∧
      (∀ owner, before.forkState forkId owner ≠ none → owner = signer) ∧
      ForkShown rt filled
        (observer.forks forkId ++ children.map (CommittedBlockHeader.report rt)) := by
  have fields := (ForkState.storeAll_spec stored).1
  cases opens with
  | @opened forkCounter inits absent counter counted committed =>
      have grows : main.forkCounter < forkCounter := by
        rw [UInt64.lt_iff_toNat_lt, counted, counter]
        omega
      rcases agrees.unused forkId (by
        intro earlier here
        cases present.symm.trans here
        rw [counter]
        exact UInt64.le_refl _) with ⟨unreported, noAccounts⟩
      refine ⟨?_, UInt64.le_of_lt grows, ?_, ?_, ?_⟩
      · have added : add64 forkId 1 = .ok forkCounter := add64_eq_ok_iff.mpr counted
        simp only [Observer.countFork, if_pos counter, added, ok_bind]
      · rw [← counter]
        exact grows
      · intro owner accountOpen
        exact absurd (noAccounts owner) accountOpen
      · rcases children with _ | ⟨first, rest⟩
        · exact absurd rfl nonempty
        · have start : filled.startHeight = base.blockheight := by rw [fields]
          refine ⟨first, rest, ?_, ?_, ?_⟩
          · rw [unreported, List.nil_append]
          · rw [start]
            exact (List.isChain_cons_cons.mp chain).1.height
          · rw [start]
            exact ((forkStores_opened base.blockheight).append stored).1
  | continued continues found initialized tipEq =>
      have used : forkId < main.forkCounter := by
        by_contra above
        have none := (agrees.unused forkId (by
          intro earlier here
          cases present.symm.trans here
          exact UInt64.not_lt.mp above)).2 signer
        rw [found] at none
        cases none
      have different : main.forkCounter ≠ forkId := by
        intro same
        rw [same] at used
        exact UInt64.lt_irrefl _ used
      rcases agrees.accounts forkId signer forkState found with
        ⟨first, rest, reported, start, holds⟩
      have same : filled.startHeight = forkState.startHeight := by rw [fields]
      refine ⟨if_neg different, UInt64.le_refl _, used, ?_, ?_⟩
      · intro owner accountOpen
        apply agrees.sole forkId owner signer accountOpen
        rw [found]
        simp
      · refine ⟨first, rest ++ children, ?_, ?_, ?_⟩
        · rw [reported, ← List.map_append, List.cons_append]
        · rw [same]
          exact start
        · rw [same, ← List.cons_append]
          exact (holds.append stored).1

/-- The first report starts the observer's main state. -/
theorem created {first : CommittedBlockHeader} (agrees : Agrees rt before observer)
    (absent : before.mainState = none)
    (updated : after.mainState = some (Observer.started (first.report rt)))
    (forks : after.forkState = before.forkState) :
    Agrees rt after { observer with mainState := some (Observer.started (first.report rt)) } := by
  have unused : ∀ forkId, observer.forks forkId = [] ∧
      ∀ owner, before.forkState forkId owner = none := by
    intro forkId
    apply agrees.unused forkId
    intro main present
    rw [absent] at present
    cases present
  refine ⟨updated.symm, ?_, ?_, ?_⟩
  · intro forkId _
    rw [forks]
    exact unused forkId
  · intro forkId owner _ here
    rw [forks] at here
    exact absurd ((unused forkId).2 owner) here
  · intro forkId owner forkState found
    rw [forks, (unused forkId).2 owner] at found
    cases found

/-- The main state may move as long as no fork id is assigned. -/
theorem move (agrees : Agrees rt before observer) (present : before.mainState = some main)
    (updated : after.mainState = some next) (counter : next.forkCounter = main.forkCounter)
    (forks : after.forkState = before.forkState) :
    Agrees rt after { observer with mainState := some next } := by
  refine ⟨updated.symm, ?_, ?_, ?_⟩
  · intro forkId above
    rw [forks]
    apply agrees.unused forkId
    intro earlier here
    cases present.symm.trans here
    rw [← counter]
    exact above _ updated
  · rw [forks]
    exact agrees.sole
  · rw [forks]
    exact agrees.accounts

/-- Fork accounts may be closed. -/
theorem close (agrees : Agrees rt before observer) (unchanged : after.mainState = before.mainState)
    (forks : ∀ forkId owner forkState, after.forkState forkId owner = some forkState →
      before.forkState forkId owner = some forkState) : Agrees rt after observer := by
  refine ⟨agrees.mainState.trans unchanged.symm, ?_, ?_, ?_⟩
  · intro forkId above
    rw [unchanged] at above
    rcases agrees.unused forkId above with ⟨unreported, noAccounts⟩
    refine ⟨unreported, ?_⟩
    intro owner
    cases found : after.forkState forkId owner with
    | none => rfl
    | some forkState =>
        have earlier := forks forkId owner forkState found
        rw [noAccounts] at earlier
        cases earlier
  · intro forkId owner other here there
    rcases Option.ne_none_iff_exists'.mp here with ⟨_, here⟩
    rcases Option.ne_none_iff_exists'.mp there with ⟨_, there⟩
    apply agrees.sole forkId owner other
    · rw [forks _ _ _ here]
      simp
    · rw [forks _ _ _ there]
      simp
  · intro forkId owner forkState found
    exact agrees.accounts forkId owner forkState (forks forkId owner forkState found)

end Agrees

/-- A heavier fork is moved to, with all blocks reported for it stored on top of its base. -/
theorem observeFork_heavier {opened copied : MainState} {first : CommittedBlockHeader}
    {rest : List CommittedBlockHeader} (present : observer.mainState = some main)
    (counts : Observer.countFork main forkId = .ok opened)
    (reported : observer.forks forkId ++ children.map (CommittedBlockHeader.report rt) =
      (first :: rest).map (CommittedBlockHeader.report rt))
    (start : first.blockheight.toNat = height.toNat + 1)
    (stored : storeAll rt storeMain opened height (first :: rest) = .ok (copied, last))
    (heavier : gtArr tip.chainWork opened.chainWork = true) :
    observer.observeFork forkId (children.map (CommittedBlockHeader.report rt)) (tip.report rt) =
      .ok { mainState := some (copied.moveTo rt tip tip.blockheight)
            forks := Function.update observer.forks forkId
              ((first :: rest).map (CommittedBlockHeader.report rt)) } := by
  have heavierReport : gtArr (tip.report rt).header.chainWork opened.chainWork = true := heavier
  have back : sub32 (first.report rt).header.blockheight 1 = .ok height := by
    have one : UInt32.toNat 1 = 1 := rfl
    simp only [CommittedBlockHeader.report, sub32_eq_ok_iff, one]
    omega
  have storedReports := (storeReports_eq opened height (first :: rest)).trans stored
  rw [List.map_cons] at storedReports
  simp only [Observer.observeFork, present, load, ok_bind, counts, reported, if_pos heavierReport,
    List.map_cons, List.head?_cons, unwrap, back, storedReports]
  rfl

theorem observeFork_lighter {opened : MainState} (present : observer.mainState = some main)
    (counts : Observer.countFork main forkId = .ok opened)
    (lighter : gtArr tip.chainWork opened.chainWork = false) :
    observer.observeFork forkId (children.map (CommittedBlockHeader.report rt)) (tip.report rt) =
      .ok { mainState := some opened
            forks := Function.update observer.forks forkId
              (observer.forks forkId ++ children.map (CommittedBlockHeader.report rt)) } := by
  have lighterReport : ¬gtArr (tip.report rt).header.chainWork opened.chainWork = true := by
    simp only [CommittedBlockHeader.report, lighter, Bool.false_eq_true, not_false_eq_true]
  simp only [Observer.observeFork, present, load, ok_bind, counts, if_neg lighterReport]

namespace Agrees

variable {before after : Ledger} {signer : Pubkey} {init : Bool} {opened : MainState}

theorem follows_created {first : CommittedBlockHeader} (agrees : Agrees rt before observer)
    (absent : before.mainState = none)
    (updated : after.mainState = some (Observer.started (first.report rt)))
    (forks : after.forkState = before.forkState) :
    ∃ next, observer.observe [headerEvent rt .storeHeader first] = .ok next ∧
      Agrees rt after next := by
  refine ⟨_, ?_, agrees.created absent updated forks⟩
  have singleton : [headerEvent rt .storeHeader first] =
    [first].map (headerEvent rt .storeHeader) := rfl
  have last : [first].getLast? = some first := rfl
  rw [singleton, observe_storeHeader rt observer last]
  simp only [Observer.observeHeaders, agrees.mainState, absent]

theorem follows_extended (agrees : Agrees rt before observer)
    (present : before.mainState = some main) (last : children.getLast? = some tip)
    (stored : storeAll rt storeMain main main.blockHeight children = .ok (ring, height))
    (updated : after.mainState = some (ring.moveTo rt tip height))
    (forks : after.forkState = before.forkState) :
    ∃ next, observer.observe (children.map (headerEvent rt .storeHeader)) = .ok next ∧
      Agrees rt after next := by
  have counter : (ring.moveTo rt tip height).forkCounter = main.forkCounter := by
    rw [(storeAll_storeMain_spec stored).1]
    rfl
  refine ⟨_, ?_, agrees.move present updated counter forks⟩
  rw [observe_storeHeader rt observer last]
  simp only [Observer.observeHeaders, agrees.mainState, present, storeReports_eq, stored, ok_bind]
  rfl

/-- The next fork id has been used by nobody. -/
theorem unassigned (agrees : Agrees rt before observer)
    (present : before.mainState = some main) :
    observer.forks main.forkCounter = [] ∧
      ∀ owner, before.forkState main.forkCounter owner = none := by
  apply agrees.unused main.forkCounter
  intro earlier here
  cases present.symm.trans here
  exact UInt64.le_refl _

theorem follows_shortFork {counter : UInt64} (agrees : Agrees rt before observer)
    (signer : Pubkey) (present : before.mainState = some main) (last : children.getLast? = some tip)
    (chain : (base :: children).IsChain (Extends rt))
    (counted : add64 main.forkCounter 1 = .ok counter)
    (stored : storeAll rt storeMain (main.countFork counter) base.blockheight children =
      .ok (ring, height))
    (heavier : gtArr tip.chainWork main.chainWork = true)
    (updated : after.mainState = some (ring.moveTo rt tip height))
    (forks : after.forkState = before.forkState) :
    ∃ next, observer.observe (children.map (headerEvent rt (.storeFork main.forkCounter))) =
      .ok next ∧ Agrees rt after next := by
  have countedEq := add64_eq_ok_iff.mp counted
  have one : UInt64.toNat 1 = 1 := rfl
  have grows : main.forkCounter < counter := by
    rw [UInt64.lt_iff_toNat_lt, countedEq, one]
    exact Nat.lt_succ_self _
  have counts : Observer.countFork main main.forkCounter = .ok (main.countFork counter) := by
    simp only [Observer.countFork, if_true, counted, ok_bind]
    rfl
  have counterEq : (ring.moveTo rt tip height).forkCounter = counter := by
    rw [(storeAll_storeMain_spec stored).1]
    rfl
  rcases agrees.unassigned present with ⟨unreported, noAccounts⟩
  rcases children with _ | ⟨first, rest⟩
  · cases last
  have reported : observer.forks main.forkCounter ++
      (first :: rest).map (CommittedBlockHeader.report rt) =
        (first :: rest).map (CommittedBlockHeader.report rt) := by
    rw [unreported, List.nil_append]
  have start := (List.isChain_cons_cons.mp chain).1.height
  have observed := observe_storeFork rt observer main.forkCounter last List.filterMap_nil
  rw [List.append_nil, observeFork_heavier (agrees.mainState.trans present) counts reported
    start stored heavier, ← eq_of_storeAll_storeMain chain last stored] at observed
  refine ⟨_, observed, ?_⟩
  apply agrees.store signer none present updated
  · rw [counterEq]
    exact UInt64.le_of_lt grows
  · rw [counterEq]
    exact grows
  · rw [forks]
    funext id owner
    simp only [Ledger.setFork]
    split
    · rename_i same
      rw [same.1, noAccounts]
    · rfl
  · intro owner accountOpen
    exact absurd (noAccounts owner) accountOpen
  · intro forkState found
    cases found

theorem follows_keptFork (agrees : Agrees rt before observer)
    (present : before.mainState = some main)
    (opens : ForkOpens rt main (before.forkState forkId signer) base forkId init opened forkState)
    (last : children.getLast? = some tip) (chain : (base :: children).IsChain (Extends rt))
    (stored : storeAll rt (fun forkState _ => forkState.storeBlockCommitment) forkState
      base.blockheight children = .ok (filled, height))
    (lighter : gtArr tip.chainWork opened.chainWork = false)
    (updated : after.mainState = some opened)
    (forks : after.forkState =
      (before.setFork forkId signer (some (filled.withTip rt tip))).forkState) :
    ∃ next, observer.observe (children.map (headerEvent rt (.storeFork forkId))) = .ok next ∧
      Agrees rt after next := by
  have nonempty : children ≠ [] := by
    rintro rfl
    cases last
  rcases agrees.opens present opens chain nonempty stored with
    ⟨counts, counted, used, others, shown⟩
  have observed := observe_storeFork rt observer forkId last List.filterMap_nil
  rw [List.append_nil, observeFork_lighter (agrees.mainState.trans present) counts lighter]
    at observed
  refine ⟨_, observed, ?_⟩
  apply agrees.store signer _ present updated counted used forks others
  rintro _ ⟨⟩
  rcases shown with ⟨first, rest, reported, start, holds⟩
  exact ⟨first, rest, reported, start, holds.initialized, holds.startHeight, holds.stored,
    holds.length⟩

theorem follows_adoptedFork {copied : MainState} {reorg : Event}
    (agrees : Agrees rt before observer) (present : before.mainState = some main)
    (opens : ForkOpens rt main (before.forkState forkId signer) base forkId init opened forkState)
    (last : children.getLast? = some tip) (chain : (base :: children).IsChain (Extends rt))
    (stored : storeAll rt (fun forkState _ => forkState.storeBlockCommitment) forkState
      base.blockheight children = .ok (filled, height))
    (heavier : gtArr tip.chainWork opened.chainWork = true)
    (copies : copyCommitments opened filled = .ok copied) (silent : reorg.report? = none)
    (updated : after.mainState = some (copied.moveTo rt tip height))
    (forks : after.forkState = (before.setFork forkId signer none).forkState) :
    ∃ next, observer.observe (children.map (headerEvent rt (.storeFork forkId)) ++ [reorg]) =
      .ok next ∧ Agrees rt after next := by
  have nonempty : children ≠ [] := by
    rintro rfl
    cases last
  rcases agrees.opens present opens chain nonempty stored with
    ⟨counts, counted, used, others, ⟨first, rest, reported, start, holds⟩⟩
  rcases ForkState.storeAll_spec stored with ⟨_, _, _, room, heights⟩
  have length := holds.length
  have room := room nonempty
  rcases exists_storeAll_of_copyCommitments holds (List.cons_ne_nil _ _) (by omega) copies with
    ⟨final, storedMain⟩
  have tipHeight : tip.blockheight = height := by
    have counted := height_getLast?_of_isChain chain last
    apply UInt32.toNat_inj.mp
    omega
  have counterEq : (copied.moveTo rt tip height).forkCounter = opened.forkCounter := by
    rw [(storeAll_storeMain_spec storedMain).1]
    rfl
  have only : [reorg].filterMap Event.report? = [] := by
    simp only [List.filterMap_cons, silent, List.filterMap_nil]
  have observed := observe_storeFork rt observer forkId last only
  rw [observeFork_heavier (agrees.mainState.trans present) counts reported start storedMain
    heavier, tipHeight] at observed
  refine ⟨_, observed, ?_⟩
  apply agrees.store signer none present updated
  · rw [counterEq]
    exact counted
  · rw [counterEq]
    exact used
  · exact forks
  · exact others
  · intro forkState found
    cases found

/-- The observer follows every successful instruction from its events alone. -/
theorem step {events : List Event} (agrees : Agrees rt before observer)
    (emits : Emits rt before after signer events) :
    ∃ next, observer.observe events = .ok next ∧ Agrees rt after next := by
  cases emits with
  | created absent updated forks => exact agrees.follows_created absent updated forks
  | extended present last stored updated forks =>
      exact agrees.follows_extended present last stored updated forks
  | shortFork present last chain counted stored heavier updated forks =>
      exact agrees.follows_shortFork signer present last chain counted stored heavier updated forks
  | keptFork present opens last chain stored lighter updated forks =>
      exact agrees.follows_keptFork present opens last chain stored lighter updated forks
  | adoptedFork present opens last chain stored heavier copies silent updated forks =>
      exact agrees.follows_adoptedFork present opens last chain stored heavier copies silent
        updated forks
  | quiet unchanged forks => exact ⟨observer, rfl, agrees.close unchanged forks⟩

end Agrees

end

/-- What an observer makes of the events of several transactions. -/
def observeAll (log : List (List Event)) : Exec Observer :=
  log.foldlM Observer.observe .initial

section

variable {rt : Runtime} {steps : List RelayStep} {ledger : Ledger}

theorem exists_agrees_of_run (run : RelayRun rt steps ledger) :
    ∃ observer, observeAll (eventLog steps) = .ok observer ∧ Agrees rt ledger observer := by
  apply run.invariant (motive := fun steps ledger =>
    ∃ observer, observeAll (eventLog steps) = .ok observer ∧ Agrees rt ledger observer)
  · intro ledger fresh
    refine ⟨.initial, rfl, fresh.mainState.symm, ?_, ?_, ?_⟩
    · intro forkId _
      exact ⟨rfl, fresh.forkState forkId⟩
    · intro forkId owner _ here
      exact absurd (fresh.forkState forkId owner) here
    · intro forkId owner forkState found
      rw [fresh.forkState] at found
      cases found
  · rintro steps before request after output _ ⟨observer, observed, agrees⟩ success
    rcases agrees.step (emits_of_process success) with ⟨next, follows, agreesNext⟩
    refine ⟨next, ?_, agreesNext⟩
    simp only [eventLog, List.map_cons, List.reverse_cons, observeAll, List.foldlM_append]
      at observed ⊢
    rw [observed]
    simp only [ok_bind, List.foldlM_cons, List.foldlM_nil, follows, pure_eq_ok]

/-- An observer of the events of a run ends with the main state of the program, and with the
blocks of every open fork account. -/
theorem observeAll_of_run (run : RelayRun rt steps ledger) :
    ∃ observer, observeAll (eventLog steps) = .ok observer ∧
      observer.mainState = ledger.mainState ∧
      ∀ forkId signer forkState, ledger.forkState forkId signer = some forkState →
        forkState.stored = (observer.forks forkId).map Report.commitHash ∧
        ∃ first, (observer.forks forkId).head? = some first ∧
          first.header.blockheight.toNat = forkState.startHeight.toNat + 1 := by
  rcases exists_agrees_of_run run with ⟨observer, observed, agrees⟩
  refine ⟨observer, observed, agrees.mainState, ?_⟩
  intro forkId signer forkState found
  rcases agrees.accounts forkId signer forkState found with
    ⟨first, rest, reported, start, holds⟩
  refine ⟨?_, first.report rt, ?_, start⟩
  · rw [reported, List.map_map, holds.stored]
    rfl
  · rw [reported]
    rfl

end

section

open Sample

theorem observeAll_reorganisation :
    ∃ observer, observeAll (eventLog (replay mainnet reorganisation).1) = .ok observer ∧
      observer.mainState = (replay mainnet reorganisation).2.mainState ∧
      ∀ forkId signer forkState,
        (replay mainnet reorganisation).2.forkState forkId signer = some forkState →
        forkState.stored = (observer.forks forkId).map Report.commitHash ∧
        ∃ first, (observer.forks forkId).head? = some first ∧
          first.header.blockheight.toNat = forkState.startHeight.toNat + 1 :=
  observeAll_of_run (run_replay mainnet reorganisation)

end

end BtcRelay
