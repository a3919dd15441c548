import BtcRelay.Chain.Failures
import BtcRelay.Network.Replay

/-!
# The work that headers add

An accepted header adds the difficulty of its target, which is positive exactly when the
target is at most that of difficulty one. Along headers with one such target the work
grows with their number, so a longer fork is not refused as too short.
-/

namespace BtcRelay

open Exec BigEndian Bitcoin

/-- The blocks of the main chain after one of them, up to the tip. -/
structure MainBlocks (rt : Runtime) (main : MainState) (base : CommittedBlockHeader)
    (blocks : List CommittedBlockHeader) : Prop where
  chain : (base :: blocks).IsChain (Extends rt)
  tip : IsTip rt main (blocks.getLastD base)

section

variable {rt : Runtime} {parent child base tip : CommittedBlockHeader} {topic : Pubkey}
  {unixTimestamp : ℤ} {blocks : List CommittedBlockHeader}

theorem difficulty_pos_iff {target : ℕ} (positive : 0 < target) :
    0 < difficulty target ↔ target ≤ maxDifficulty := by
  rw [difficulty, Nat.div_pos_iff]
  exact and_iff_right positive

theorem HeaderChecks.target_pos (checks : HeaderChecks rt parent topic unixTimestamp child) :
    0 < setCompact child.header.nbits.toNat := by
  rcases checks.work with ⟨target, difficulty, decoded, _, quotient, _⟩
  have minTarget := ((getDifficulty_eq_ok_iff decoded).mp quotient).1
  omega

theorem HeaderChecks.chainWork_eq (checks : HeaderChecks rt parent topic unixTimestamp child)
    (bounded : value parent.chainWork + child.header.addedWork < 2 ^ 256) :
    value child.chainWork = value parent.chainWork + child.header.addedWork := by
  rcases checks.work with ⟨target, difficulty, decoded, _, quotient, chainWork⟩
  have words : (256 ^ 32 : ℕ) = 2 ^ 256 := by norm_num
  rw [chainWork, value_ofNat, ((getDifficulty_eq_ok_iff decoded).mp quotient).2, words]
  exact Nat.mod_eq_of_lt bounded

theorem chainWork_getLastD {work : ℕ} (chain : (base :: blocks).IsChain (Extends rt))
    (same : ∀ block ∈ blocks, block.header.addedWork = work)
    (bounded : value base.chainWork + blocks.length * work < 2 ^ 256) :
    value (blocks.getLastD base).chainWork = value base.chainWork + blocks.length * work := by
  induction blocks generalizing base with
  | nil => simp
  | cons first rest ih =>
      rcases List.isChain_cons_cons.mp chain with ⟨extend, tail⟩
      rcases extend.checks with ⟨topic, unixTimestamp, checks⟩
      have added := same first List.mem_cons_self
      rw [List.length_cons, Nat.succ_mul] at bounded ⊢
      have here := checks.chainWork_eq (by omega)
      rw [added] at here
      have later := ih tail (fun block member => same block (List.mem_cons_of_mem first member))
        (by omega)
      rw [List.getLastD_cons, later, here]
      omega

/-- A longer fork with the target of the blocks that it replaces has more work. -/
theorem chainWork_lt_of_longer {main : MainState} {children : List CommittedBlockHeader}
    (path : MainBlocks rt main base blocks) (fork : (base :: children).IsChain (Extends rt))
    (easy : setCompact base.header.nbits.toNat ≤ maxDifficulty)
    (sameMain : ∀ block ∈ blocks, block.header.nbits = base.header.nbits)
    (sameFork : ∀ block ∈ children, block.header.nbits = base.header.nbits)
    (longer : blocks.length < children.length)
    (bounded : value base.chainWork + children.length * base.header.addedWork < 2 ^ 256) :
    value main.chainWork < value (children.getLastD base).chainWork := by
  have added : ∀ block : CommittedBlockHeader, block.header.nbits = base.header.nbits →
      block.header.addedWork = base.header.addedWork := by
    intro block same
    rw [BlockHeader.addedWork, same]
    rfl
  have positive : 0 < base.header.addedWork := by
    cases children with
    | nil => exact absurd longer (Nat.not_lt_zero _)
    | cons first rest =>
        rcases (List.isChain_cons_cons.mp fork).1.checks with ⟨_, _, checks⟩
        have target := checks.target_pos
        rw [sameFork first List.mem_cons_self] at target
        exact (difficulty_pos_iff target).mpr easy
  have more : blocks.length * base.header.addedWork < children.length * base.header.addedWork :=
    Nat.mul_lt_mul_of_pos_right longer positive
  rw [path.tip.chainWork,
    chainWork_getLastD path.chain (fun block member => added block (sameMain block member))
      (by omega),
    chainWork_getLastD fork (fun block member => added block (sameFork block member)) bounded]
  omega

/-- A header adds work exactly when its target is at most that of difficulty one, and a longer
fork with such a target is not refused as too short. -/
theorem addsWork_and_not_forkTooShort (rt : Runtime) :
    (∀ header parent child topic unixTimestamp blockHash,
      verifyHeader rt header parent topic unixTimestamp = .ok (child, blockHash) →
      value parent.chainWork + header.addedWork < 2 ^ 256 →
      (value parent.chainWork < value child.chainWork ↔
        setCompact header.nbits.toNat ≤ maxDifficulty)) ∧
    ∀ ctx main data base blocks, MainBlocks rt main base blocks →
      setCompact base.header.nbits.toNat ≤ maxDifficulty →
      (∀ block ∈ blocks, block.header.nbits = base.header.nbits) →
      (∀ header ∈ data, header.nbits = base.header.nbits) →
      blocks.length < data.length →
      value base.chainWork + data.length * base.header.addedWork < 2 ^ 256 →
      submitShortForkHeaders rt ctx main data base ≠ .error (.relay .forkTooShort) := by
  refine ⟨?_, ?_⟩
  · intro header parent child topic unixTimestamp blockHash accepted bounded
    rcases verifyHeader_eq_ok_iff.mp accepted with ⟨checks, rfl, _⟩
    rw [checks.chainWork_eq bounded, ← difficulty_pos_iff checks.target_pos]
    exact Nat.lt_add_right_iff_pos
  · intro ctx main data base blocks path easy sameMain sameFork longer bounded refused
    have allowed : Throws (fun failure => failure ≠ .relay .forkTooShort)
        (submitShortForkHeaders rt ctx main data base) := by
      have aborts : Failure.abort ≠ .relay .forkTooShort := by simp
      refine Throws.bind ?_ fun _ required => ?_
      · refine (Throws.require _ (by simp)).bind fun _ _ => Throws.require _ (by simp)
      refine (throws_getCommitment aborts _ _).bind fun commitment _ => ?_
      refine (Throws.require _ (by simp)).bind fun _ _ => ?_
      refine Throws.bind ?_ fun last run => ?_
      · intro failure failed
        have header := throws_submitHeaders _ _ _ _ _ _ _ failure failed
        rintro rfl
        simp [HeaderFailure] at header
      · rcases submitHeaders_eq_ok_iff.mp run with ⟨children, stored, accepted, _, rfl⟩
        rcases batch_of_accepted required accepted with ⟨tip, batch⟩
        have sameChildren : ∀ block ∈ children, block.header.nbits = base.header.nbits := by
          intro block member
          apply sameFork
          rw [← batch.headers]
          exact List.mem_map_of_mem member
        have length := batch.length_eq
        have heavier := chainWork_lt_of_longer path batch.isChain easy sameMain sameChildren
          (by omega) (by rw [length]; exact bounded)
        have passes : gtArr (children.getLastD base).chainWork main.chainWork = true :=
          (gtArr_iff _ _).mpr heavier
        simp only [Progress.advance, passes, require_of_true, ok_bind]
        exact (Throws.add64 aborts _ _).bind fun _ _ => Throws.ok _
    exact allowed _ refused rfl

end

section

open Sample

theorem verifyHeader_main1 : verifyHeader mainnet main1Header start
    (headerTopic mainnet (main1Header.getBlockHash mainnet)) 1721030000 =
      .ok (main1, main1Header.getBlockHash mainnet) := of_decide_eq_true (by decide +kernel)

theorem mainBlocks_main1 : MainBlocks mainnet
    (mainStateAfter mainnet [begin mainnet, extend mainnet [main1Header] start]) start [main1] := by
  have link : start.header.getBlockHash mainnet = main1.header.reversedPrevBlockhash :=
    of_decide_eq_true (by decide +kernel)
  have checks := (verifyHeader_eq_ok_iff.mp verifyHeader_main1).1
  refine ⟨.cons_cons ⟨link, _, _, checks⟩ (.singleton main1), ?_⟩
  exact ⟨of_decide_eq_true (by decide +kernel), of_decide_eq_true (by decide +kernel),
    of_decide_eq_true (by decide +kernel), of_decide_eq_true (by decide +kernel),
    of_decide_eq_true (by decide +kernel)⟩

theorem addsWork_main1 :
    (value start.chainWork < value main1.chainWork ↔
        setCompact main1Header.nbits.toNat ≤ maxDifficulty) ∧
      submitShortForkHeaders mainnet
        (shortFork mainnet [short1Header, short2Header] start).toContext
        (mainStateAfter mainnet [begin mainnet, extend mainnet [main1Header] start])
        [short1Header, short2Header] start ≠ .error (.relay .forkTooShort) := by
  refine ⟨?_, ?_⟩
  · exact (addsWork_and_not_forkTooShort mainnet).1 _ _ _ _ _ _ verifyHeader_main1 (by decide)
  · apply (addsWork_and_not_forkTooShort mainnet).2 _ _ _ _ _ mainBlocks_main1
    · decide
    · simp only [List.forall_mem_singleton]
      rfl
    · decide
    · decide
    · decide

/-- A block of the test network is accepted and adds no work. -/
theorem chainWork_regtest :
    ∃ child, verifyHeader mainnet regtestHeader regtestStart
        (headerTopic mainnet (regtestHeader.getBlockHash mainnet)) 1721030000 =
          .ok (child, regtestHeader.getBlockHash mainnet) ∧
      setCompact regtestStart.header.nbits.toNat ≠ 0 ∧
      value child.chainWork = value regtestStart.chainWork := by
  refine ⟨regtestStart.commit regtestHeader, ?_, by decide, ?_⟩
  · exact of_decide_eq_true (by decide +kernel)
  · decide

end

end BtcRelay
