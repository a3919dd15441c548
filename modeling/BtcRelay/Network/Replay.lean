import BtcRelay.Chain.LightClient
import BtcRelay.Chain.Runs
import BtcRelay.Network.Deployment
import Mathlib.Data.UInt

/-!
# Replaying requests

A list of requests is replayed on a ledger without any account of the program, which gives
a run. The hash assumptions about the headers that occur in it are decided from a list of
these headers. The blocks are mined at difficulty one: a main chain on top of a first
block, a fork of that block and a fork of the block after it.
-/

namespace BtcRelay

open BigEndian History

/-- A ledger whose users own lamports, before the program is used. -/
def fundedLedger : Ledger where
  mainState := none
  forkState _ _ := none
  txAccount _ := none
  depositAccount := none
  lamports _ := 2 ^ 62
  owner _ := systemProgram

theorem fresh_fundedLedger : fundedLedger.Fresh where
  mainState := rfl
  forkState _ _ := rfl
  txAccount _ := rfl
  depositAccount := rfl

theorem exists_of_isOk {α : Type} {result : Exec α} (succeeds : result.isOk = true) :
    ∃ value, result = .ok value := by
  cases result with
  | error failure => cases succeeds
  | ok value => exact ⟨value, rfl⟩

/-- The steps, the newest first, and the last ledger of a list of requests that all succeed. -/
def replay (rt : Runtime) (requests : List Request) : List RelayStep × Ledger :=
  match execute (process rt) [] fundedLedger requests with
  | .ok result => result
  | .error _ => ([], fundedLedger)

section

variable {rt : Runtime} {known : List CommittedBlockHeader} {steps : List RelayStep}

theorem run_replay (rt : Runtime) (requests : List Request) :
    RelayRun rt (replay rt requests).1 (replay rt requests).2 := by
  have start : RelayRun rt [] fundedLedger := .start fresh_fundedLedger
  simp only [replay]
  split
  · rename_i executed
    exact run_of_execute start executed
  · exact start

theorem map_request_replay {requests : List Request}
    (started : (replay rt requests).2.mainState.isSome = true) :
    (replay rt requests).1.map Step.request = requests.reverse := by
  simp only [replay] at started ⊢
  split at started
  · rename_i executed
    rw [map_request_of_execute executed]
    exact List.append_nil _
  · cases started

def mainStateAfter (rt : Runtime) (requests : List Request) : MainState :=
  (replay rt requests).2.mainState.getD .zeroed

theorem mainState_replay {requests : List Request}
    (started : (replay rt requests).2.mainState.isSome = true) :
    (replay rt requests).2.mainState = some (mainStateAfter rt requests) := by
  rcases Option.isSome_iff_exists.mp started with ⟨main, present⟩
  rw [mainStateAfter, present, Option.getD_some]

/-- The commitments of the known headers differ from each other and from the empty one, and no
other headers occur in the steps. -/
def hashesChecked (rt : Runtime) (known : List CommittedBlockHeader) (steps : List RelayStep) :
    Bool :=
  ((emptyArray :: known.map (CommittedBlockHeader.getCommitHash rt)).Nodup : Bool) &&
    (accepted steps ++ presented steps).all fun committed => committed ∈ known

theorem soundHashes_of_nodup
    (nodup : (emptyArray :: known.map (CommittedBlockHeader.getCommitHash rt)).Nodup) :
    SoundHashes rt { committed | committed ∈ known } where
  collisionFree := by
    rintro _ ⟨first, firstMem, rfl⟩ _ ⟨second, secondMem, rfl⟩ same
    have commitments := (List.nodup_cons.mp nodup).2
    rw [List.inj_on_of_nodup_map commitments firstMem secondMem same]
  nonzero := by
    intro committed member zero
    apply (List.nodup_cons.mp nodup).1
    rw [← zero]
    exact List.mem_map_of_mem member

theorem soundHashes_of_hashesChecked (checked : hashesChecked rt known steps = true) :
    SoundHashes rt { committed | committed ∈ known } := by
  simp only [hashesChecked, Bool.and_eq_true, decide_eq_true_eq] at checked
  exact soundHashes_of_nodup checked.1

theorem occurring_subset_of_hashesChecked (checked : hashesChecked rt known steps = true) :
    occurring steps ⊆ { committed | committed ∈ known } := by
  simp only [hashesChecked, Bool.and_eq_true, decide_eq_true_eq, List.all_eq_true,
    List.mem_append] at checked
  intro committed occurs
  exact checked.2 committed occurs

end

namespace Sample

def startTime : UInt32 := 1721024744

def mined (version : UInt32) (parent root : ℕ) (timestamp nonce : UInt32) : BlockHeader where
  version
  reversedPrevBlockhash := ofNat 32 parent
  merkleRoot := ofNat 32 root
  timestamp
  nbits := 0x1d00ffff
  nonce

def startHeader : BlockHeader :=
  mined 0x20000200 0xaeebad4a796fcc2e15dc4c6061b45ed9b373f26adfc798ca7d2d8cc58182718e
    0xaa508c2187fca56f397ff75adc52b94e02f38122cdd48bd42105106e5e0f8e14 startTime 0x0e6a770b

/-- The committed header that the relay is initialized with. -/
def start : CommittedBlockHeader where
  chainWork := ofNat 32 1000
  header := startHeader
  lastDiffAdjustment := startTime - 600 * 1000
  blockheight := 1000
  prevBlockTimestamps := .ofFn fun position => startTime - 600 * (10 - UInt32.ofNat position)

def main1Header : BlockHeader :=
  mined 0x20000000 0x95b42a69c884d7f5a0a424cf1635fd6710918532b7500ddeb0b7e11300000000
    0xcd5ad502294871acb94a4d23296759d07c86336287bb361dcde1dc559ab8561a (startTime + 600) 0x55f54529

def main2Header : BlockHeader :=
  mined 0x20000000 0x94b9bd565668d4f520d260e06e42258ca1732a3f33852d302141489700000000
    0xc8361f9b468e68c86da024270e0949ce139cb704b8d7cce586681b99f3a7ea56 (startTime + 1200) 0x95d7afc4

/-- A fork of the first block. -/
def short1Header : BlockHeader :=
  mined 0x20000200 0x95b42a69c884d7f5a0a424cf1635fd6710918532b7500ddeb0b7e11300000000
    0x3696ad59777e09d5f2daacb544022d435e7cd053d87c5781241fabd8fdf2a90d (startTime + 600) 0x06a0f524

def short2Header : BlockHeader :=
  mined 0x20000300 0x086705a4a7f3d04295a847dfb208ce0557ae33759ea214dca00b39f500000000
    0xadfa2b24c2d924fe6383d8804be55afb98ea3eb0e14c3470ac3a0f651b9a422e (startTime + 1200) 0x0d767a0e

def short3Header : BlockHeader :=
  mined 0x20000000 0xbc5dcbf7c92b84e4270367bc53768eb723563b9f2c312b6898827c9c00000000
    0x44d6a8a73eddb284d49799fdbfa2919a004ece6d2df3546eaa4e246048bcdf81 (startTime + 1800) 0x8c7b37d0

/-- A fork of the block with the deposit. -/
def long1Header : BlockHeader :=
  mined 0x20000300 0x94b9bd565668d4f520d260e06e42258ca1732a3f33852d302141489700000000
    0xdeae2d4d75857c1081f113bcfc950dca567dd5a2e14e6ac8fb8e5785ff4dd5ec (startTime + 1200) 0x77c06093

def long2Header : BlockHeader :=
  mined 0x20000300 0x3044802fd7f0aba15ad895497c4c4d3f060d09393dfa45e79b27a24000000000
    0x8e2de3335023201ffa4d803767bdf12790c58f4f241554c544bde8bf7b8455a4 (startTime + 1800) 0x4ecd352a

def long3Header : BlockHeader :=
  mined 0x20000300 0x1f2a5d116f50468024086aa16a49b561e81bafd6656dd00a6a1ab58e00000000
    0x7c96eb02cc9750d69a916f29575b273c86ce9518d958d287c9731997c4a6aaea (startTime + 2400) 0x0288f721

def main1 : CommittedBlockHeader := start.commit main1Header

def main2 : CommittedBlockHeader := main1.commit main2Header

def short1 : CommittedBlockHeader := start.commit short1Header

def short2 : CommittedBlockHeader := short1.commit short2Header

def short3 : CommittedBlockHeader := short2.commit short3Header

def long1 : CommittedBlockHeader := main1.commit long1Header

def long2 : CommittedBlockHeader := long1.commit long2Header

def long3 : CommittedBlockHeader := long2.commit long3Header

/-- The last block of a difficulty period whose first block has a later time. -/
def backwardsHeader : BlockHeader :=
  mined 0x20000000 0x514cb13f603464f97849ba88d2d4f9698003a9323de9b7a3d162ef76f6998122
    0x4439e44862b85cc6d4c7f522808581e5b4489ec37c5b7b0ef2f7f0efa1333196 (startTime + 2015) 0x660fd537

def backwards : CommittedBlockHeader where
  chainWork := ofNat 32 4031
  header := backwardsHeader
  lastDiffAdjustment := startTime + 7200
  blockheight := 4031
  prevBlockTimestamps := .ofFn fun position => startTime + 2005 + UInt32.ofNat position

/-- The first block of the next period, at four times the difficulty. -/
def retargetHeader : BlockHeader where
  version := 0x20000000
  reversedPrevBlockhash :=
    ofNat 32 0x6790b2e219ac9104eed4925b80e4c6e251746d34db927aebe64ec50c00000000
  merkleRoot := ofNat 32 0xa791366f6f6201254edcac9ec72017b12d8a69513b5e1e29a29a4048ffb16e27
  timestamp := startTime + 2615
  nbits := 0x1c3fffc0
  nonce := 0x6acf1a33

/-- The block that the tests initialize the relay with, of a network with an easy target. -/
def regtestStart : CommittedBlockHeader where
  chainWork := emptyArray
  header := {
    version := 0x20000000
    reversedPrevBlockhash :=
      ofNat 32 0x83d04469c82347e01488ee3acd643ef87f3849918bc3c7599815bee9485be667
    merkleRoot := ofNat 32 0x343dfd9da41f797fa67aebff13a002126157153fb0e1d601075ed502470b21a4
    timestamp := 1721024744
    nbits := 0x207fffff
    nonce := 1 }
  lastDiffAdjustment := 1721024744
  blockheight := 12999
  prevBlockTimestamps := .replicate 10 1721024744

/-- The block that the tests submit next. -/
def regtestHeader : BlockHeader where
  version := 0x20000000
  reversedPrevBlockhash :=
    ofNat 32 0x6decbe778da43b24f4395aaeebc97c89094101e46c7a0c4d5fc9051ed3282e67
  merkleRoot := ofNat 32 0x127150aa9fde65fcef6b76a34fb1a42f723f22c5595210cdd42c7dd1fa781480
  timestamp := 1721024804
  nbits := 0x207fffff
  nonce := 1

/-- The other transaction of the block with the deposit. -/
def coinbaseTxid : Bytes32 :=
  ofNat 32 0x64c9e17ec60cd8e074aa24fdb533b3147b651cc18d7c9bcd6b00ef483affc22f

def depositor : Pubkey :=
  ofNat 32 0x435d9babb858d9a9304f2dafaf742dd050cb0393b73ec4f19df6dacd96c71dae

def depositTx : Transaction where
  version := 2
  lockTime := 0
  input := [{
    previousTxid :=
      ofNat 32 0x46a6abfc9a010d8942320717f8d4407d8b0f656458ae3ef3adbdbe5b31b9df46
    previousVout := 0
    scriptSig := []
    sequence := 0xfffffffd
    witness := [] }]
  output := [{
    value := 100000
    scriptPubkey := [0x00, 0x20] ++
      (ofNat 32 0x4a3a5f1583c04e6c45ada0e4724f3e394122ce97d36762d24cc9f6563faee485).toList }]

def depositTxid : Bytes32 :=
  ofNat 32 0x8561e79f10caa43aec9d07191ac6c0618db4097cd87faffdb8fd8e7c358fbbe5

def mainnet : Runtime := deployed false [depositTx]

/-- A request that supplies the accounts that index some headers. -/
def request (rt : Runtime) (data : List BlockHeader) (instruction : Instruction) : Request where
  signer := emptyArray
  remainingAccounts := data.map fun header => headerTopic rt (header.getBlockHash rt)
  unixTimestamp := 1721030000
  instruction

def begin (rt : Runtime) : Request :=
  request rt [startHeader] (.initializeRelay start.header start.blockheight start.chainWork
    start.lastDiffAdjustment start.prevBlockTimestamps)

def extend (rt : Runtime) (data : List BlockHeader) (base : CommittedBlockHeader) : Request :=
  request rt data (.submitBlockHeaders data base)

def shortFork (rt : Runtime) (data : List BlockHeader) (base : CommittedBlockHeader) : Request :=
  request rt data (.submitShortForkHeaders data base)

def longFork (rt : Runtime) (data : List BlockHeader) (parent : CommittedBlockHeader)
    (init : Bool) : Request :=
  request rt data (.submitForkHeaders data parent 0 init)

/-- The upload of the deposit transaction, checked against its block. -/
def upload (rt : Runtime) : List Request :=
  [request rt [] (.initBigTxVerify depositTxid 200 1 1 [coinbaseTxid] main1),
    request rt [] (.storeTxBytes depositTxid depositTx.serialize)]

def payUploaded (rt : Runtime) : Request :=
  request rt [] (.finalizeTxProcessing depositTxid depositor)

def paySmall (rt : Runtime) : Request :=
  request rt [] (.verifySmallTx depositTx.serialize 1 1 [coinbaseTxid] main1 depositor)

/-- A fork of the first block replaces the main chain. -/
def reorganisation : List Request :=
  [begin mainnet, extend mainnet [main1Header] start, longFork mainnet [short1Header] start true,
    longFork mainnet [short2Header] short1 false]

/-- A fork is adopted after its base has been replaced by another fork. -/
def lostBase : List Request :=
  [begin mainnet, extend mainnet [main1Header, main2Header] start,
    longFork mainnet [long1Header] main1 true,
    shortFork mainnet [short1Header, short2Header, short3Header] start,
    longFork mainnet [long2Header, long3Header] long1 false]

def paidOnce : List Request :=
  [begin mainnet, extend mainnet [main1Header] start, request mainnet [] (.deposit (2 ^ 40))] ++
    upload mainnet ++ [payUploaded mainnet]

/-- A deposit is paid as a large and as a small transaction. -/
def paidTwice : List Request := paidOnce ++ [paySmall mainnet]

/-- A deposit is paid after its block has been replaced. -/
def paidOrphan : List Request :=
  [begin mainnet, extend mainnet [main1Header] start, request mainnet [] (.deposit (2 ^ 40))] ++
    upload mainnet ++ [shortFork mainnet [short1Header, short2Header] start, payUploaded mainnet]

theorem hashesChecked_reorganisation : hashesChecked mainnet [start, main1, short1, short2]
    (replay mainnet reorganisation).1 = true := by decide +kernel

theorem soundHashes_reorganisation :
    SoundHashes mainnet { committed | committed ∈ [start, main1, short1, short2] } :=
  soundHashes_of_hashesChecked hashesChecked_reorganisation

theorem occurring_reorganisation : occurring (replay mainnet reorganisation).1 ⊆
    { committed | committed ∈ [start, main1, short1, short2] } :=
  occurring_subset_of_hashesChecked hashesChecked_reorganisation

theorem mainState_reorganisation : (replay mainnet reorganisation).2.mainState =
    some (mainStateAfter mainnet reorganisation) := by
  apply mainState_replay
  decide +kernel

end Sample

end BtcRelay
