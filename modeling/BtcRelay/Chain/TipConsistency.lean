import BtcRelay.Network.EasyBlocks

/-!
# Tip consistency

The tip can be read back from the ring buffer, and the relay extended from it, as long as
no fork is adopted whose tip has already fallen out of the buffer: `store_block_commitment`
refuses such heights and its result is ignored. That is also the only way to lose the tip.
-/

namespace BtcRelay

open Exec BigEndian CircularBuffer

/-- The commitment of the tip is in the ring buffer, and belongs to a header that agrees with
the main state. -/
structure TipConsistent (rt : Runtime) (main : MainState) : Prop where
  stored : main.getCommitment main.blockHeight = .ok main.tipCommitHash
  tip : ∃ tip, IsTip rt main tip

/-- The relay is initialized at a height that the ring buffer can work with. -/
def StartsHigh (steps : List RelayStep) : Prop :=
  ∀ step ∈ steps, ∀ initial, step.request.instruction.initial? = some initial →
    250 ≤ initial.blockheight.toNat

/-- If the step submits a fork with more work than the main chain, the fork's tip is still in the
range of the ring buffer. -/
def AdoptsInRange (step : RelayStep) : Prop :=
  ∀ main data commitedHeader forkId init, step.before.mainState = some main →
    step.request.instruction = .submitForkHeaders data commitedHeader forkId init →
    outweighs main commitedHeader data = true →
    main.startHeight.toNat < commitedHeader.blockheight.toNat + data.length + 250

section

variable {rt : Runtime} {steps : List RelayStep} {ledger : Ledger}

/-- Along a run whose adoptions are in range, the tip is high and stays in the buffer. -/
theorem tip_in_range_of_run (run : RelayRun rt steps ledger)
    (sound : SoundHashes rt (occurring steps)) (high : StartsHigh steps)
    (inRange : ∀ step ∈ steps, AdoptsInRange step) :
    ∀ main, ledger.mainState = some main → 250 ≤ main.blockHeight.toNat ∧
      main.startHeight.toNat < main.blockHeight.toNat + 250 := by
  induction run with
  | start fresh =>
      intro main present
      rw [fresh.mainState] at present
      cases present
  | @step steps before after request output run success ih =>
      have whole := History.Run.step run success
      have suffix := List.suffix_cons (⟨before, request, after, output⟩ : RelayStep) steps
      have soundBefore := sound.mono (occurring_mono suffix)
      have invariant := chainInvariant_of_run run soundBefore
      have previous := ih soundBefore (fun step member => high step (List.mem_cons_of_mem _ member))
        (fun step member => inRange step (List.mem_cons_of_mem _ member))
      intro main' updated'
      cases mainStep_of_run whole sound with
      | created instruction absent updated =>
          cases updated.symm.trans updated'
          have bound := high _ List.mem_cons_self _ (by rw [instruction]; rfl)
          simp only [initializeRelay] at bound ⊢
          omega
      | unmoved _ unchanged =>
          rw [unchanged] at updated'
          exact previous main' updated'
      | kept _ present updated =>
          cases updated.symm.trans updated'
          have unmoved := previous _ present
          exact unmoved
      | @committed main _ data base tip instruction present updated base_mem advances length
          commitment =>
          cases updated.symm.trans updated'
          have mainInvariant := invariant.main main present
          have held := mainInvariant.of_getCommitment sound
            (fun _ member => occurring_mono suffix (Or.inl member))
            (occurring_mono suffix (Or.inl base_mem)) commitment
          have covers := (Buffer.covers_of_read held.2.2.2.2).1
          have near : main.startHeight.toNat < base.blockheight.toNat + 250 := covers
          have height := advances.height
          have above := mainInvariant.high (previous main present).1 base base_mem
          exact ⟨by omega, advances.startHeight_lt (by omega)⟩
      | @adopted main _ data base parent tip earlier forkId init instruction present updated
          outweighing base_mem earlier_mem parent_eq advances length account heavier room =>
          cases updated.symm.trans updated'
          have height := advances.height
          have above := (invariant.main main present).high (previous main present).1 base base_mem
          have bound := inRange _ List.mem_cons_self main data parent forkId init present
            instruction outweighing
          rw [← advances.height_of_parent parent_eq length] at bound
          exact ⟨by omega, advances.startHeight_lt bound⟩

theorem tipConsistent_of_run (run : RelayRun rt steps ledger)
    (sound : SoundHashes rt (occurring steps)) (high : StartsHigh steps)
    (inRange : ∀ step ∈ steps, AdoptsInRange step) {main : MainState}
    (present : ledger.mainState = some main) : TipConsistent rt main := by
  rcases tip_in_range_of_run run sound high inRange main present with ⟨atLeast, kept⟩
  have invariant := (chainInvariant_of_run run sound).main main present
  rcases invariant.tip with ⟨tip, _, isTip⟩
  exact ⟨getCommitment_of_read invariant.inside atLeast (le_refl _) (by omega)
    (invariant.stored kept), tip, isTip⟩

/-- A consistent tip after an adoption shows that the fork's tip was in range. -/
theorem adoptsInRange_of_tipConsistent {step : RelayStep}
    (run : RelayRun rt (step :: steps) ledger)
    (sound : SoundHashes rt (occurring (step :: steps)))
    (consistent : ∀ main, step.after.mainState = some main → TipConsistent rt main) :
    AdoptsInRange step := by
  intro main data commitedHeader forkId init present instruction outweighing
  have after := run
  rw [run.of_cons.2.2] at after
  cases mainStep_of_run run sound with
  | created instruction' => exact absurd (instruction.symm.trans instruction') (by simp)
  | unmoved instruction' => exact absurd instruction (instruction' _ _ _ _)
  | kept instruction' present' _ outweighed =>
      cases instruction.symm.trans instruction'
      cases present.symm.trans present'
      rw [outweighing] at outweighed
      cases outweighed
  | committed instruction' =>
      rcases instruction' with ⟨instruction', _⟩ | ⟨instruction', _⟩
      · exact absurd (instruction.symm.trans instruction') (by simp)
      · exact absurd (instruction.symm.trans instruction') (by simp)
  | @adopted main' next data' base parent tip earlier forkId' init' instruction' present' updated
      _ base_mem earlier_mem parent_eq advances length =>
      cases instruction.symm.trans instruction'
      cases present.symm.trans present'
      have invariant := (chainInvariant_of_run after sound).main next updated
      have stored := (consistent next updated).stored
      rcases invariant.tip with ⟨_, tip_mem, isTip⟩
      rw [isTip.tipCommitHash] at stored
      have nonzero := sound.nonzero _ (Or.inl tip_mem)
      have held := read_of_getCommitment invariant.inside stored nonzero
      have covers := (Buffer.covers_of_read held.2.2.2).1
      rw [← advances.height_of_parent parent_eq length]
      exact lt_of_le_of_lt advances.startHeight_le covers

/-- The tip is consistent in every state of a run exactly when every fork it adopts has its tip
in the range of the ring buffer. -/
theorem tipConsistent_iff_adoptsInRange (run : RelayRun rt steps ledger)
    (sound : SoundHashes rt (occurring steps)) (high : StartsHigh steps) :
    (∀ step ∈ steps, ∀ main, step.after.mainState = some main → TipConsistent rt main) ↔
      ∀ step ∈ steps, AdoptsInRange step := by
  constructor
  · intro consistent step member
    rcases run.of_mem member with ⟨earlier, _, _, after, suffix⟩
    exact adoptsInRange_of_tipConsistent after (sound.mono (occurring_mono suffix))
      (consistent step member)
  · intro inRange step member main present
    rcases run.of_mem member with ⟨earlier, _, _, after, suffix⟩
    exact tipConsistent_of_run after (sound.mono (occurring_mono suffix))
      (fun other inSuffix => high other (suffix.subset inSuffix))
      (fun other inSuffix => inRange other (suffix.subset inSuffix)) present

end

section

open Sample

theorem tipConsistent_iff_adoptsInRange_reorganisation :
    (∀ step ∈ (replay mainnet reorganisation).1, ∀ main, step.after.mainState = some main →
        TipConsistent mainnet main) ↔
      ∀ step ∈ (replay mainnet reorganisation).1, AdoptsInRange step := by
  apply tipConsistent_iff_adoptsInRange (run_replay mainnet reorganisation)
  · exact soundHashes_reorganisation.mono occurring_reorganisation
  · have checked : (replay mainnet reorganisation).1.all (fun step =>
        step.request.instruction.initial?.all fun initial => 250 ≤ initial.blockheight.toNat) =
        true := by decide +kernel
    intro step member initial started
    have high := List.all_eq_true.mp checked step member
    rw [started] at high
    exact of_decide_eq_true high

end

namespace Sample

/-- A block with an easy target on top of the first block. -/
def stalledHeader : BlockHeader where
  version := 0x20000000
  reversedPrevBlockhash :=
    ofNat 32 0x95b42a69c884d7f5a0a424cf1635fd6710918532b7500ddeb0b7e11300000000
  merkleRoot := ofNat 32 0x22249aa61fd2594e50910aa574afbb977f9df8f7377e6f02e19c72245d899ad8
  timestamp := startTime + 600
  nbits := 0x207fffff
  nonce := 3

/-- The next block on top of it, of difficulty one. -/
def revivedHeader : BlockHeader :=
  mined 0x20000300 0x0728a5dfd731c4e02f21b0665543cf528c8024940aa0fda44654884a0e0edf6b
    0x713a5bb2d170c8684937ab1dd0311be88e0d95fbd9b253333965841517794f64 (startTime + 1200) 0x5997c805

def stalled : CommittedBlockHeader := start.commit stalledHeader

def revived : CommittedBlockHeader := stalled.commit revivedHeader

def easyNonces : ℕ :=
  0x112111021042502301032000100300000320003013022204110 * 16 ^ 450 +
    0x010310311000011010312013110230000011540211000000020410130001003400121252100300002110004000 *
      16 ^ 360 +
    0x100010100010011313010193000004030001022020071500000120401031003000101122000111010100001117 *
      16 ^ 270 +
    0x000112000001101000203010010104051201000021020011000220640121100031014413050101152014001100 *
      16 ^ 180 +
    0x001001021001011222104200030010012050124021510210013020110100000501121301200302120004001110 *
      16 ^ 90 +
    0x002000211110031031011021221131300403303205000133150400200103002010121105111000022130300001

/-- Two full turns of the ring buffer on top of the first block. -/
def easyChain : List CommittedBlockHeader := easyBlocks 501 easyNonces start

def startWindow : ℕ := Sha256.bytesNumber (start.prevBlockTimestamps.toList.flatMap leBytes)

theorem easyTip_start : EasyTip start
    0x95b42a69c884d7f5a0a424cf1635fd6710918532b7500ddeb0b7e11300000000 1721024744 1000
    startWindow := by
  refine ⟨?_, rfl, rfl, rfl, ?_, rfl, rfl⟩
  · exact of_decide_eq_true (by decide +kernel)
  · intro other member
    have earlier : (start.prevBlockTimestamps.toList.all
        fun other => decide (other.toNat ≤ 1721024744)) = true := by decide
    exact of_decide_eq_true (List.all_eq_true.mp earlier other member)

/-- The commitments marked before the chain. -/
def startMarks : ℕ :=
  mark (mark (mark (mark 0 0)
    0xb894bfb373a7fbb5ce3fc65b1ab5cb1b7f5f0a069040f26ff94a7d1354364164)
    0xf9035183f741446618ab69b2887c079fda6bd7c95a32b603c98adacddf434025)
    0x3902206983038b313f6db49d04f9762dfa64c56b3f9a584220cf205f150016c8

/-- The residues of the first 375 blocks of the chain. -/
def easyResidues : ℕ :=
  [
    0x750aa474fe8ce7bd794596076887eac37d7b9b92ac5215cdaaa5b38683b06373db59cb299af33026d0fce2e21d,
    0x93870413826149f6fa2b60811f437b01a83adf42d60a5bd68e04640a92d51e89ef2117baabf9499ac4dd1540cb,
    0x80b763386e107d098fbbf101d29dec25c86dde11f1615741bf4a30a8474d8ffaeb83cb1d540e71db0dbc14c46b,
    0x746265f08a22de511656056aa3913732e1b7221f51ebf43b9cf9efa690947bb54e6751eb7b2c8bae48454cf754,
    0xb0817cad968ff024dd61d006c22eed6869376871269619c09c60d5135eca4523d2ff20b5d630a5842a4bb169ce,
    0x2c9f09e8065d1a30724b312edd2df785565901b01e5dbb16c85cdf44e8f1206f1fd6a4e9f1abf02c8d588c8351,
    0x494861b9ac8c95e18789d2d9428c1498b38e20f45466f8ced1bf9fa78f9749f17f7813024af6a8de214703e636,
    0x839adf9423919a2312e3ee9d8b58f824e0cf719187960b6e853320fdece1631149c122666fecbb3698002cfa70,
    0x6aaedc2afe8cd8b46521cdb5cb8833045e736838ae6805c55a91c55ed25bcff7323ab43442258422fcee12107,
    0x4473c5b211e7d815f8755733e497edba32ef19fbf08f8719a8971721b94a79c4a8f9c88e51aa49ca04e0a19f8e,
    0x97aeae8fdc330eeec646ef3a3d4de94e57e86013ee615e028ec029821fdd0121ba7ff07465fe3b0f2362fc7102,
    0x289024d67036c9b3817817546a178177fd11720e439d495583eebd0d4b61d413f0928e265002ee665c269a8968,
    0xf7d5df535cda0a8add0314e3a6fbc073d8abd2c9a6c1f61fa0a74f5e933a5f12a3b9d24df160aa2c9a267d069c,
    0xeca1596414806b48938078eb8ffdb6b2d8c6eccd7e5491cb62cde59e4c81ce54766712ede8ee28ace091d5fe16,
    0x302eb18c402ecf59e7509e82dcdf21f72b168618b80f3c42589d7
  ].foldr (fun digits rest => digits + rest * 2 ^ 360) 0

def markResidues : ℕ → ℕ → ℕ → ℕ
  | 0, _, marks => marks
  | count + 1, residues, marks =>
      markResidues count (residues / 2 ^ 14) (marks ||| 1 <<< (residues % 2 ^ 14))

theorem checked_first : easyChecked
    (reaches (easyNonces / 16 ^ 125)
      0x5ea6ff76ba0227ecd4510eccd7beb9291f3c19dec747c8b4bf753c309d912a1d 1721024869 1125
      0x5bc194665cc194665dc194665ec194665fc1946660c1946661c1946662c1946663c1946664c19466
      (markResidues 125 easyResidues startMarks))
    125 easyNonces 0x95b42a69c884d7f5a0a424cf1635fd6710918532b7500ddeb0b7e11300000000 1721024744
    1000 startWindow startMarks = true := by
  decide +kernel

theorem checked_second : easyChecked
    (reaches (easyNonces / 16 ^ 250)
      0x7f2c50742aa8b8d9a3b8efdda9f6920d14dad5fbbc9d4e55ecf94f98b08bd36c 1721024994 1250
      0xd8c19466d9c19466dac19466dbc19466dcc19466ddc19466dec19466dfc19466e0c19466e1c19466
      (markResidues 250 easyResidues startMarks))
    125 (easyNonces / 16 ^ 125)
    0x5ea6ff76ba0227ecd4510eccd7beb9291f3c19dec747c8b4bf753c309d912a1d 1721024869 1125
    0x5bc194665cc194665dc194665ec194665fc1946660c1946661c1946662c1946663c1946664c19466
    (markResidues 125 easyResidues startMarks) = true := by
  decide +kernel

theorem checked_third : easyChecked
    (reaches (easyNonces / 16 ^ 375)
      0x1acc60dbd42300d83b2c379a7c0a7dcafd8c7b69511356cdb7dad475b7fe0b15 1721025119 1375
      0x55c2946656c2946657c2946658c2946659c294665ac294665bc294665cc294665dc294665ec29466
      (markResidues 375 easyResidues startMarks))
    125 (easyNonces / 16 ^ 250)
    0x7f2c50742aa8b8d9a3b8efdda9f6920d14dad5fbbc9d4e55ecf94f98b08bd36c 1721024994 1250
    0xd8c19466d9c19466dac19466dbc19466dcc19466ddc19466dec19466dfc19466e0c19466e1c19466
    (markResidues 250 easyResidues startMarks) = true := by
  decide +kernel

theorem checked_last : easyChecked (fun _ _ _ _ _ _ => true) 126 (easyNonces / 16 ^ 375)
    0x1acc60dbd42300d83b2c379a7c0a7dcafd8c7b69511356cdb7dad475b7fe0b15 1721025119 1375
    0x55c2946656c2946657c2946658c2946659c294665ac294665bc294665cc294665dc294665ec29466
    (markResidues 375 easyResidues startMarks) = true := by
  decide +kernel

theorem checked_easyChain : easyChecked (fun _ _ _ _ _ _ => true) 501 easyNonces
    0x95b42a69c884d7f5a0a424cf1635fd6710918532b7500ddeb0b7e11300000000 1721024744 1000 startWindow
    startMarks = true := by
  have parts := easyChecked_add checked_first (easyChecked_add checked_second
    (easyChecked_add checked_third checked_last))
  exact parts

end Sample

/-- A fork account that holds a single block on top of a base. -/
structure HoldsOne (rt : Runtime) (forkState : ForkState) (base tip : CommittedBlockHeader) :
    Prop where
  initialized : forkState.initialized ≠ 0
  startHeight : forkState.startHeight = base.blockheight
  length : forkState.length = 1
  tipCommitHash : forkState.tipCommitHash = tip.getCommitHash rt

section

open Sample

/-- The requests that open a fork account on the first block and leave it. -/
def stalling : List Request := [begin testnet, longFork testnet [stalledHeader] start true]

def stalledFork : ForkState := ((replay testnet stalling).2.forkState 0 emptyArray).getD .zeroed

theorem forkState_stalling :
    (replay testnet stalling).2.forkState 0 emptyArray = some stalledFork ∧
      HoldsOne testnet stalledFork start stalled := by
  have checked : (replay testnet stalling).2.forkState 0 emptyArray = some stalledFork ∧
      stalledFork.initialized ≠ 0 ∧ stalledFork.startHeight = start.blockheight ∧
      stalledFork.length = 1 ∧ stalledFork.tipCommitHash = stalled.getCommitHash testnet :=
    of_decide_eq_true (by decide +kernel)
  rcases checked with ⟨found, initialized, startHeight, length, tip⟩
  exact ⟨found, initialized, startHeight, length, tip⟩

theorem mainState_stalling :
    (replay testnet stalling).2.mainState = some (mainStateAfter testnet stalling) ∧
      Extendable testnet (mainStateAfter testnet stalling) start ∧
      (mainStateAfter testnet stalling).totalBlocks = 1 ∧
      hashesChecked testnet [start, stalled] (replay testnet stalling).1 = true := by
  have checked : (replay testnet stalling).2.mainState = some (mainStateAfter testnet stalling) ∧
      ((mainStateAfter testnet stalling).tipCommitHash = start.getCommitHash testnet ∧
        (mainStateAfter testnet stalling).tipBlockHash = start.header.getBlockHash testnet ∧
        (mainStateAfter testnet stalling).chainWork = start.chainWork ∧
        (mainStateAfter testnet stalling).lastDiffAdjustment = start.lastDiffAdjustment ∧
        (mainStateAfter testnet stalling).blockHeight = start.blockheight) ∧
      ((mainStateAfter testnet stalling).startHeight = start.blockheight ∧
        (mainStateAfter testnet stalling).getCommitment
          (mainStateAfter testnet stalling).blockHeight = .ok (start.getCommitHash testnet)) ∧
      (mainStateAfter testnet stalling).totalBlocks = 1 ∧
      hashesChecked testnet [start, stalled] (replay testnet stalling).1 = true :=
    of_decide_eq_true (by decide +kernel)
  rcases checked with ⟨present, ⟨commitHash, blockHash, work, adjustment, height⟩,
    ⟨startHeight, committed⟩, total, hashes⟩
  have heights : (mainStateAfter testnet stalling).blockHeight.toNat = 1000 ∧
      (mainStateAfter testnet stalling).startHeight.toNat = 1000 := by
    rw [height, startHeight]
    decide
  refine ⟨present, ⟨⟨commitHash, blockHash, work, adjustment, height⟩, committed, ?_, ?_, ?_⟩,
    total, hashes⟩
  · omega
  · omega
  · omega

theorem submittable_revived : Submittable testnet 1721030000 stalled revived := by
  have checked : stalled.header.getBlockHash testnet = revivedHeader.reversedPrevBlockhash ∧
      revivedHeader.nbits.toNat / 2 ^ 24 ≤ 32 ∧
      2 ^ 16 ≤ Bitcoin.setCompact revivedHeader.nbits.toNat ∧
      value (revivedHeader.getBlockHash testnet).reverse ≤
        Bitcoin.setCompact revivedHeader.nbits.toNat ∧
      isLargerThanMedian stalled.prevBlockTimestamps stalled.header.timestamp
        revivedHeader.timestamp = true ∧
      (revivedHeader.timestamp.toNat : ℤ) < 1721030000 + 14400 ∧
      stalled.blockheight.toNat + 1 < 2 ^ 32 := of_decide_eq_true (by decide +kernel)
  rcases checked with ⟨link, size, minTarget, proofOfWork, median, clock, height⟩
  refine ⟨link, ?_⟩
  apply headerChecks_commit
  · intro mainnet
    cases mainnet
  · exact size
  · exact minTarget
  · exact proofOfWork
  · exact median
  · exact ⟨by omega, by omega, clock⟩
  · exact height

theorem outweighs_revived {main : MainState} (work : value main.chainWork = value start.chainWork) :
    outweighs main stalled [revivedHeader] = true := by
  have total : submittedWork [revivedHeader] stalled.chainWork = .ok revived.chainWork ∧
      value start.chainWork < value revived.chainWork := of_decide_eq_true (by decide +kernel)
  rw [outweighs, total.1]
  apply (gtArr_iff _ _).mpr
  exact lt_of_eq_of_lt work total.2

/-- The fork is still adopted when the main chain has grown. -/
theorem exists_process_revived {main : MainState} {ledger : Ledger}
    (present : ledger.mainState = some main)
    (forks : ledger.forkState = (replay testnet stalling).2.forkState)
    (room : main.totalBlocks.toNat + 2 < 2 ^ 32) :
    ∃ after events next, process testnet ledger (longFork testnet [revivedHeader] stalled false) =
      .ok (after, events) ∧ after.mainState = some next ∧
      events.filterMap Event.header? = [revived] := by
  rcases forkState_stalling with ⟨account, holds⟩
  have one : UInt32.toNat 1 = 1 := rfl
  have startHeight : start.blockheight.toNat = 1000 := rfl
  have lengthOne : stalledFork.length.toNat = 1 := by rw [holds.length, one]
  have forkHeight : stalledFork.startHeight.toNat = 1000 := by rw [holds.startHeight, startHeight]
  rcases @exists_submitForkHeaders testnet
    (longFork testnet [revivedHeader] stalled false).toContext main stalled revived stalledFork 0
    submittable_revived rfl holds.initialized holds.tipCommitHash (by omega)
    (by omega) (by omega) with ⟨next, closed, events, submitted, adopted⟩
  have accountOpen : ledger.forkState 0 emptyArray = some stalledFork := by rw [forks, account]
  have header : revived.header = revivedHeader := rfl
  rw [header] at submitted
  refine ⟨{ ledger.setFork 0 emptyArray closed with mainState := some next }, events, next, ?_, rfl,
    adopted⟩
  simp only [process, longFork, request, present, accountOpen, load, ok_bind] at submitted ⊢
  rw [submitted, ok_bind]

/-- The requests of a fork that is adopted after its tip has fallen out of the ring buffer. -/
def revival : List Request :=
  stalling ++ extensions testnet start easyChain ++ [longFork testnet [revivedHeader] stalled false]

theorem startsHigh_of_mem_revival {steps : List RelayStep}
    (requested : ∀ step ∈ steps, step.request ∈ revival) : StartsHigh steps := by
  intro step member initial started
  have occurs := requested step member
  simp only [revival, stalling, List.mem_append, List.mem_cons, List.not_mem_nil, or_false]
    at occurs
  rcases occurs with ((same | same) | extension) | same
  · rw [same] at started
    cases started
    decide
  · rw [same] at started
    cases started
  · rw [initial?_of_mem_extensions extension] at started
    cases started
  · rw [same] at started
    cases started

theorem occurring_extended_subset {later : List RelayStep}
    (accepts : accepted later ⊆ easyChain) (presents : presented later ⊆ start :: easyChain) :
    occurring (later ++ (replay testnet stalling).1) ⊆
      { c | c ∈ start :: stalled :: revived :: easyChain } := by
  rcases mainState_stalling with ⟨_, _, _, hashes⟩
  apply occurring_append_subset
  · intro committed member
    simp [accepts member]
  · intro committed member
    rcases List.mem_cons.mp (presents member) with rfl | inChain
    · simp
    · simp [inChain]
  · intro committed member
    have inStart := occurring_subset_of_hashesChecked hashes member
    simp only [Set.mem_ofPred_eq, List.mem_cons, List.not_mem_nil, or_false] at inStart
    rcases inStart with rfl | rfl
    · simp
    · simp

theorem soundHashes_easyChain :
    SoundHashes testnet { c | c ∈ start :: stalled :: revived :: easyChain } := by
  rcases easyBlocks_of_checked easyTip_start checked_easyChain with ⟨_, _, _, nodup, fresh⟩
  have commitments : value (start.getCommitHash testnet) =
      0xb894bfb373a7fbb5ce3fc65b1ab5cb1b7f5f0a069040f26ff94a7d1354364164 ∧
      value (stalled.getCommitHash testnet) =
        0xf9035183f741446618ab69b2887c079fda6bd7c95a32b603c98adacddf434025 ∧
      value (revived.getCommitHash testnet) =
        0x3902206983038b313f6db49d04f9762dfa64c56b3f9a584220cf205f150016c8 :=
    of_decide_eq_true (by decide +kernel)
  rcases commitments with ⟨first, second, third⟩
  have marked : ∀ block ∈ easyChain, 0 ≠ residueOf block ∧ residueOf start ≠ residueOf block ∧
      residueOf stalled ≠ residueOf block ∧ residueOf revived ≠ residueOf block := by
    intro block member
    have unmarked := fresh block member
    simp only [startMarks, testBit_mark, Bool.or_eq_false_iff, ← first, ← second, ← third] at unmarked
    rcases unmarked with ⟨⟨⟨⟨_, zero⟩, first⟩, second⟩, third⟩
    exact ⟨of_decide_eq_false zero, of_decide_eq_false first, of_decide_eq_false second,
      of_decide_eq_false third⟩
  apply soundHashes_of_nodup
  apply List.Nodup.of_map (fun commitment => residue (value commitment))
  have residues : (emptyArray :: (start :: stalled :: revived :: easyChain).map
      (CommittedBlockHeader.getCommitHash testnet)).map
        (fun commitment => residue (value commitment)) =
      0 :: residueOf start :: residueOf stalled :: residueOf revived ::
        easyChain.map residueOf := by
    simp only [List.map_cons, List.map_map]
    rfl
  have distinct : [0, residueOf start, residueOf stalled, residueOf revived].Nodup := by
    simp only [residueOf, first, second, third]
    decide
  rw [residues]
  apply List.Nodup.append distinct nodup
  intro residue known member
  rcases List.mem_map.mp member with ⟨block, inChain, rfl⟩
  rcases marked block inChain with ⟨zero, first, second, third⟩
  simp only [List.mem_cons, List.not_mem_nil, or_false] at known
  rcases known with same | same | same | same
  · exact zero same.symm
  · exact first same.symm
  · exact second same.symm
  · exact third same.symm

/-- The tip is lost when a fork is adopted after two turns of the ring buffer. -/
theorem not_tipConsistent_revival :
    ∃ steps ledger main, RelayRun testnet steps ledger ∧
      steps.map History.Step.request = revival.reverse ∧
      SoundHashes testnet (occurring steps) ∧ StartsHigh steps ∧
      ledger.mainState = some main ∧ ¬TipConsistent testnet main := by
  rcases mainState_stalling with ⟨present', extendable, total, hashes⟩
  rcases easyBlocks_of_checked easyTip_start checked_easyChain with
    ⟨submittable, work, length, _, _⟩
  have length : easyChain.length = 501 := length
  have one : UInt32.toNat 1 = 1 := rfl
  rcases exists_run_extensions (run_replay testnet stalling) present' extendable submittable
    (by rw [total, one]; omega) with
    ⟨later, extended, main, run, present, extendable, more, forks, requests, accepted, presented⟩
  rcases exists_process_revived present forks (by rw [total, one] at more; omega) with
    ⟨after, events, next, success, updated, adopted⟩
  have whole := run.step success
  have known := occurring_extended_subset accepted presented
  have sound : SoundHashes testnet (occurring (⟨extended, longFork testnet [revivedHeader] stalled
      false, after, events⟩ :: (later ++ (replay testnet stalling).1))) := by
    apply soundHashes_easyChain.mono
    apply @occurring_append_subset _ _ [_] _ _ known
    · intro committed member
      simp only [BtcRelay.accepted, List.flatMap_singleton, adopted, List.mem_singleton] at member
      simp [member]
    · intro committed member
      rw [List.mem_singleton.mp member]
      simp
  have requested : (⟨extended, longFork testnet [revivedHeader] stalled false, after, events⟩ ::
      (later ++ (replay testnet stalling).1)).map History.Step.request = revival.reverse := by
    rw [List.map_cons, List.map_append, requests, map_request_replay (by rw [present']; rfl),
      revival, List.reverse_concat, List.reverse_append]
    rfl
  refine ⟨_, _, next, whole, requested, sound, ?_, updated, ?_⟩
  · apply startsHigh_of_mem_revival
    intro step member
    apply List.mem_reverse.mp
    rw [← requested]
    exact List.mem_map_of_mem member
  · intro consistent
    have inRange := adoptsInRange_of_tipConsistent whole sound (by
      intro other here
      cases updated.symm.trans here
      exact consistent)
    have heavier : outweighs main stalled [revivedHeader] = true := by
      apply outweighs_revived
      rw [extendable.isTip.chainWork]
      exact work
    have bound := inRange main [revivedHeader] stalled 0 false present rfl heavier
    -- the main chain is two turns ahead of the fork's base
    have chain : (start :: easyChain).IsChain (Extends testnet) :=
      submittable.imp fun _ _ submittable => ⟨submittable.link, _, _, submittable.checks⟩
    have height := height_getLastD_of_isChain chain
    have inside := extendable.inside
    rw [extendable.isTip.blockHeight] at inside
    change (easyChain.getLastD start).blockheight.toNat < _ at inside
    have startHeight : start.blockheight.toNat = 1000 := rfl
    have stalledHeight : stalled.blockheight.toNat = 1001 := rfl
    rw [stalledHeight, List.length_singleton] at bound
    omega

end

end BtcRelay
