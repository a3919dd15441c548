import BtcRelay.Chain.EventLog
import BtcRelay.Chain.TipOrder

/-!
# Headers are submitted once

No submission of headers succeeds twice in a run. One that moves the main chain leads to a
tip that depends on its arguments only, and the relay does not return to a tip. One that
continues a fork account leaves it with more blocks than its arguments continue from, and
an account that has been closed is never opened again.
-/

namespace BtcRelay

open BigEndian History

def Instruction.submitsHeaders : Instruction → Bool
  | .initializeRelay .. => true
  | .submitBlockHeaders .. => true
  | .submitShortForkHeaders .. => true
  | .submitForkHeaders .. => true
  | _ => false

/-- The successful submissions of headers in a run. -/
def submissions (steps : List RelayStep) : List Instruction :=
  (steps.map fun step => step.request.instruction).filter Instruction.submitsHeaders

section

variable {rt : Runtime} {steps earlier later : List RelayStep} {step : RelayStep}
  {ledger : Ledger} {main next : MainState} {base : CommittedBlockHeader}
  {children : List CommittedBlockHeader} {data : List BlockHeader} {forkId : UInt64}
  {signer : Pubkey} {forkState : ForkState}

/-- The last header of a chain is determined by the base and the submitted headers. -/
theorem getLastD_eq_commitAll (chain : (base :: children).IsChain (Extends rt)) :
    children.getLastD base = base.commitAll (children.map CommittedBlockHeader.header) := by
  induction children generalizing base with
  | nil => rfl
  | cons child rest ih =>
      rcases List.isChain_cons_cons.mp chain with ⟨extend, tail⟩
      rcases extend.checks with ⟨_, _, checks⟩
      rw [List.getLastD_cons, ih tail, List.map_cons]
      exact congrArg (fun first : CommittedBlockHeader =>
        first.commitAll (rest.map CommittedBlockHeader.header)) checks.eq_commit

/-- A submission to the main chain accepts the submitted headers on top of its base. -/
theorem headers_of_submission
    (success : process rt step.before step.request = .ok (step.after, step.output))
    (instruction : step.request.instruction = .submitBlockHeaders data base ∨
      step.request.instruction = .submitShortForkHeaders data base) :
    (step.output.filterMap Event.header?).map CommittedBlockHeader.header = data ∧
      step.output.filterMap Event.header? ≠ [] ∧ ∃ main, step.before.mainState = some main := by
  rcases instruction with instruction | instruction
  · simp only [process, instruction, Exec.bind_eq_ok_iff, load_eq_ok_iff, Except.ok.injEq,
      Prod.exists, Prod.mk.injEq] at success
    rcases success with ⟨main, present, next, _, submitted, _, rfl⟩
    rcases submitBlockHeaders_spec submitted with ⟨children, tip, batch, _, _, _, _, emitted⟩
    rw [emitted, filterMap_header?_storeHeader]
    exact ⟨batch.headers, batch.ne_nil, main, present⟩
  · simp only [process, instruction, Exec.bind_eq_ok_iff, load_eq_ok_iff, Except.ok.injEq,
      Prod.exists, Prod.mk.injEq] at success
    rcases success with ⟨main, present, next, _, submitted, _, rfl⟩
    rcases submitShortForkHeaders_spec submitted with ⟨children, tip, batch, _, _, _, _, _, emitted⟩
    rw [emitted, filterMap_header?_storeFork]
    exact ⟨batch.headers, batch.ne_nil, main, present⟩

/-- A submission to the main chain moves it up to the tip that its arguments determine. -/
theorem exists_rank_of_submission (run : RelayRun rt (step :: earlier) ledger)
    (sound : SoundHashes rt (occurring (step :: earlier)))
    (bounded : NoOverflow rt { c | c ∈ accepted (step :: earlier) })
    (instruction : step.request.instruction = .submitBlockHeaders data base ∨
      step.request.instruction = .submitShortForkHeaders data base) :
    ∃ main next, step.before.mainState = some main ∧ step.after.mainState = some next ∧
      main.rank < next.rank ∧ next.rank = (base.commitAll data).rank := by
  rcases headers_of_submission run.of_cons.2.1 instruction with
    ⟨headers, nonempty, main, present⟩
  cases mainStep_of_run run sound with
  | created created => simp [created] at instruction
  | unmoved _ _ none => exact absurd none nonempty
  | kept kept => simp [kept] at instruction
  | @committed _ next data' base' tip called here updated base_mem advances =>
      cases present.symm.trans here
      have same : base' = base := by
        rcases called with ⟨called, _⟩ | ⟨called, _⟩
        · simp [called] at instruction
          exact instruction.2
        · simp [called] at instruction
          exact instruction.2
      subst same
      have tipEq := getLastD_eq_commitAll advances.chain
      rw [headers, List.getLastD_eq_getLast?, advances.last, Option.getD_some] at tipEq
      refine ⟨main, next, present, updated, ?_, ?_⟩
      · apply advances.rank_lt bounded
        · intro block member
          rcases List.mem_cons.mp member with rfl | member
          · exact accepted_mono (List.suffix_cons step earlier) base_mem
          · exact List.mem_append_left _ member
        · exact called.imp And.right And.right
      · rw [advances.rank_eq, tipEq]
  | adopted adopted => simp [adopted] at instruction

/-- A main state is not gone again. -/
theorem mainState_ne_none_of_run (run : RelayRun rt steps ledger)
    (sound : SoundHashes rt (occurring steps)) (member : step ∈ steps)
    (started : step.output.filterMap Event.header? ≠ []) : ledger.mainState ≠ none := by
  intro absent
  have empty := ((chainInvariant_of_run run sound).unstarted absent).1
  rcases List.exists_mem_of_ne_nil _ started with ⟨committed, accepts⟩
  have occurs : committed ∈ { c | c ∈ accepted steps } :=
    List.mem_flatMap.mpr ⟨step, member, accepts⟩
  rw [empty] at occurs
  cases occurs

section Fork

theorem assigned?_of_opening {data : List BlockHeader}
    (instruction : step.request.instruction = .submitForkHeaders data base forkId true) :
    assigned? step = some forkId := by
  simp only [assigned?, instruction]

/-- An account whose id was assigned before a step is not opened by it. -/
theorem exists_forkState_before (run : RelayRun rt (step :: earlier) ledger)
    (used : forkId ∈ assigned earlier)
    (found : step.after.forkState forkId signer = some forkState) :
    ∃ former, step.before.forkState forkId signer = some former ∧
      former.startHeight = forkState.startHeight ∧
      former.length.toNat ≤ forkState.length.toNat := by
  have chainStep := chainStep_of_process run.of_cons.2.1
  generalize step.output.filterMap Event.header? = children at chainStep
  cases chainStep with
  | created _ _ _ forks =>
      rw [forks] at found
      exact ⟨forkState, found, rfl, le_refl _⟩
  | extend _ _ _ forks =>
      rw [forks] at found
      exact ⟨forkState, found, rfl, le_refl _⟩
  | shortFork _ _ _ forks =>
      rw [forks] at found
      exact ⟨forkState, found, rfl, le_refl _⟩
  | @fork main opened next current filled account data base tip openId init _ instruction present
      updated forks opens batch fields stored length room ends =>
      rw [forks] at found
      simp only [Ledger.setFork] at found
      split at found
      · rename_i same
        rcases same with ⟨rfl, rfl⟩
        cases opens with
        | opened inits =>
            -- the id would be assigned a second time
            subst inits
            have nodup := (forkIdsFresh_of_run run).nodup
            rw [assigned_cons_of_some (assigned?_of_opening instruction)] at nodup
            exact absurd used (List.nodup_cons.mp nodup).1
        | continued continues former =>
            cases ends with
            | adopted => cases found
            | kept =>
                cases found
                refine ⟨current, former, ?_, by simp only; omega⟩
                rw [fields]
      · exact ⟨forkState, found, rfl, le_refl _⟩
  | close _ _ forks =>
      rw [forks] at found
      simp only [Ledger.setFork] at found
      split at found
      · cases found
      · exact ⟨forkState, found, rfl, le_refl _⟩
  | idle _ _ forks =>
      rw [forks] at found
      exact ⟨forkState, found, rfl, le_refl _⟩

/-- An open account has been open, and has only grown, since any step by which its id had been
assigned. -/
theorem exists_forkState_after (run : RelayRun rt (later ++ step :: earlier) ledger)
    (used : forkId ∈ assigned (step :: earlier))
    (found : ledger.forkState forkId signer = some forkState) :
    ∃ former, step.after.forkState forkId signer = some former ∧
      former.startHeight = forkState.startHeight ∧
      former.length.toNat ≤ forkState.length.toNat := by
  induction later generalizing ledger forkState with
  | nil =>
      have ends : ledger = step.after := run.of_cons.2.2
      rw [ends] at found
      exact ⟨forkState, found, rfl, le_refl _⟩
  | cons last rest ih =>
      rcases run.of_cons with ⟨before, _, rfl⟩
      have usedBefore : forkId ∈ assigned (rest ++ step :: earlier) := by
        simp only [assigned, List.filterMap_append, List.mem_append]
        exact Or.inr used
      rcases exists_forkState_before run usedBefore found with ⟨middle, present, start, length⟩
      rcases ih before present with ⟨former, after, start', length'⟩
      exact ⟨former, after, start'.trans start, length'.trans length⟩

/-- A submission that continues an account starts from the last block in it, and leaves more blocks
in it or closes it. -/
theorem exists_forkState_of_continued (run : RelayRun rt (step :: earlier) ledger)
    (sound : SoundHashes rt (occurring (step :: earlier)))
    (instruction : step.request.instruction = .submitForkHeaders data base forkId false) :
    ∃ former, step.before.forkState forkId step.request.signer = some former ∧
      base.blockheight.toNat = former.startHeight.toNat + former.length.toNat ∧
      ∀ current, step.after.forkState forkId step.request.signer = some current →
        current.startHeight = former.startHeight ∧
        former.length.toNat < current.length.toNat := by
  rcases run.of_cons with ⟨before, success, _⟩
  have suffix := List.suffix_cons step earlier
  have invariant := chainInvariant_of_run before (sound.mono (occurring_mono suffix))
  have chainStep := chainStep_of_process success
  generalize step.output.filterMap Event.header? = children at chainStep
  cases chainStep with
  | @fork main opened next current filled account data' base' tip openId init _ called present
      updated forks opens batch fields stored length room ends =>
      simp only [called, Instruction.submitForkHeaders.injEq] at instruction
      rcases instruction with ⟨rfl, rfl, rfl, rfl⟩
      have base_mem : base' ∈ occurring (step :: earlier) :=
        mem_occurring_of_commitedHeader? (by rw [called]; rfl)
      rcases exists_forkHolds_of_forkOpens (invariant.main main present)
        (fun forkState found => invariant.forks main openId _ forkState present found)
        sound (fun _ member => occurring_mono suffix (Or.inl member)) base_mem opens with
        ⟨root, blocks, holds, parent_eq, _, _⟩
      have height := height_getLastD_of_isChain holds.chain
      rw [← parent_eq, ← holds.startHeight, ← holds.length] at height
      have more := List.length_pos_iff.mpr batch.ne_nil
      cases opens with
      | opened inits => cases inits
      | continued _ former =>
          refine ⟨current, former, height, ?_⟩
          intro last found
          simp only [forks, Ledger.setFork, and_self, if_true] at found
          cases ends with
          | adopted => cases found
          | kept =>
              cases found
              refine ⟨?_, by simp only; omega⟩
              rw [fields]
  | created called => simp [called] at instruction
  | extend called => simp [called] at instruction
  | shortFork called => simp [called] at instruction
  | close called => simp [called] at instruction
  | idle called => exact absurd instruction (called data base forkId false)

end Fork

/-- No submission continues a fork account from the same block again. -/
theorem ne_of_continued (run : RelayRun rt (step :: steps) ledger)
    (sound : SoundHashes rt (occurring (step :: steps)))
    (instruction : step.request.instruction = .submitForkHeaders data base forkId false) :
    ∀ other ∈ steps, other.request.instruction ≠ .submitForkHeaders data base forkId false := by
  intro other member again
  rcases run.of_cons with ⟨before, _, _⟩
  have soundBefore := sound.mono (occurring_mono (List.suffix_cons step steps))
  rcases exists_forkState_of_continued run sound instruction with ⟨current, found, height, _⟩
  rcases List.append_of_mem member with ⟨later, earlier, rfl⟩
  rcases before.split with ⟨runBefore, _, runOther⟩
  have suffix : other :: earlier <:+ later ++ other :: earlier := List.suffix_append _ _
  rcases exists_forkState_of_continued runOther (soundBefore.mono (occurring_mono suffix)) again
    with ⟨former, formerFound, formerHeight, grows⟩
  have used : forkId ∈ assigned earlier :=
    (forkIdsFresh_of_run runBefore).accounts forkId other.request.signer (by simp [formerFound])
  have usedAfter : forkId ∈ assigned (other :: earlier) :=
    (List.Sublist.filterMap _ (List.sublist_cons_self other earlier)).subset used
  rcases exists_forkState_after before usedAfter found with ⟨after, afterFound, start, length⟩
  -- one signer owns the account throughout
  have owner : other.request.signer = step.request.signer := by
    rcases exists_forkState_before runOther used afterFound with ⟨_, ownFound, _⟩
    rcases exists_agrees_of_run runBefore with ⟨_, _, agrees⟩
    apply agrees.sole forkId
    · simp [formerFound]
    · simp [ownFound]
  rw [← owner] at afterFound
  rcases grows after afterFound with ⟨sameStart, more⟩
  rw [← start, sameStart] at height
  omega

theorem ne_of_submitsHeaders (run : RelayRun rt (step :: steps) ledger)
    (sound : SoundHashes rt (occurring (step :: steps)))
    (bounded : NoOverflow rt { c | c ∈ accepted (step :: steps) })
    (submits : step.request.instruction.submitsHeaders = true) :
    ∀ other ∈ steps, other.request.instruction ≠ step.request.instruction := by
  rcases run.of_cons with ⟨before, success, _⟩
  have suffix := List.suffix_cons step steps
  have soundBefore := sound.mono (occurring_mono suffix)
  have moves {data : List BlockHeader} {base : CommittedBlockHeader}
      (instruction : step.request.instruction = .submitBlockHeaders data base ∨
        step.request.instruction = .submitShortForkHeaders data base) :
      ∀ other ∈ steps, other.request.instruction ≠ step.request.instruction := by
    intro other member again
    have boundedBefore := bounded.mono fun _ member => accepted_mono suffix member
    rcases exists_rank_of_submission run sound bounded instruction with
      ⟨main, next, present, _, above, tipRank⟩
    rcases before.of_mem member with ⟨earlier, _, _, runOther, suffixOther⟩
    rw [← again] at instruction
    rcases exists_rank_of_submission runOther (soundBefore.mono (occurring_mono suffixOther))
      (boundedBefore.mono fun _ member => accepted_mono suffixOther member) instruction with
      ⟨_, former, _, formerFound, _, formerRank⟩
    rcases improves_of_run before soundBefore boundedBefore other member former formerFound with
      ⟨_, here, improves⟩
    cases present.symm.trans here
    -- the tip of both would be at most as high as the main chain between them
    rw [tipRank, ← formerRank] at above
    exact absurd improves.rank_le (not_le_of_gt above)
  cases instruction : step.request.instruction with
  | initializeRelay data blockHeight chainWork lastDiffAdjustment prevBlockTimestamps =>
      intro other member again
      simp only [process, instruction, Exec.bind_eq_ok_iff, requireAbsent_eq_ok_iff] at success
      rcases success with ⟨_, absent, _⟩
      rcases before.of_mem member with ⟨_, _, successOther, _⟩
      refine mainState_ne_none_of_run before soundBefore member ?_ absent
      simp only [process, again, Exec.bind_eq_ok_iff, Except.ok.injEq, Prod.mk.injEq]
        at successOther
      rcases successOther with ⟨_, _, _, _, _, emitted⟩
      rw [← emitted]
      simp [initializeRelay, Event.header?]
  | submitBlockHeaders data base =>
      rw [← instruction]
      exact moves (Or.inl instruction)
  | submitShortForkHeaders data base =>
      rw [← instruction]
      exact moves (Or.inr instruction)
  | submitForkHeaders data base forkId init =>
      cases init with
      | false => exact ne_of_continued run sound instruction
      | true =>
          intro other member again
          have nodup := (forkIdsFresh_of_run run).nodup
          rw [assigned_cons_of_some (assigned?_of_opening instruction)] at nodup
          apply (List.nodup_cons.mp nodup).1
          exact List.mem_filterMap.mpr ⟨other, member, assigned?_of_opening again⟩
  | _ => simp [instruction, Instruction.submitsHeaders] at submits

/-- No submission of headers succeeds twice in a run, whoever signs it. -/
theorem nodup_submissions_of_run (run : RelayRun rt steps ledger)
    (sound : SoundHashes rt (occurring steps)) (room : LeavesRoom steps) :
    (submissions steps).Nodup := by
  induction run with
  | start => exact List.nodup_nil
  | @step steps before after request output run success ih =>
      have suffix := List.suffix_cons (⟨before, request, after, output⟩ : RelayStep) steps
      have whole := Run.step run success
      have bounded := noOverflow_of_leavesRoom whole sound room
      have rest := ih (sound.mono (occurring_mono suffix)) fun step member =>
        room step (suffix.subset member)
      cases submits : request.instruction.submitsHeaders with
      | false =>
          simp only [submissions, List.map_cons, submits, Bool.false_eq_true, not_false_eq_true,
            List.filter_cons_of_neg]
          exact rest
      | true =>
          simp only [submissions, List.map_cons, submits, List.filter_cons_of_pos,
            List.nodup_cons]
          refine ⟨?_, rest⟩
          intro again
          rcases List.mem_map.mp (List.mem_filter.mp again).1 with ⟨other, member, same⟩
          exact ne_of_submitsHeaders whole sound bounded submits other member same

end

section

open Sample

theorem nodup_submissions_reorganisation :
    (submissions (replay mainnet reorganisation).1).Nodup :=
  nodup_submissions_of_run (run_replay mainnet reorganisation)
    (soundHashes_reorganisation.mono occurring_reorganisation) leavesRoom_reorganisation

end

end BtcRelay
