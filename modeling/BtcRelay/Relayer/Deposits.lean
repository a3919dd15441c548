import BtcRelay.Bridge.Replays
import BtcRelay.Relayer.Transactions

/-!
# From a deposit to its payout

A deposit reaches its receiver through both programs: the relayer looks up the block of the
transaction, proves the transaction's position in it and rebuilds the committed header, and
the program checks the proof, the commitment and the outputs before it pays. When the node
says the truth, nothing but the commitment of the rebuilt header, the owner of the
receiver's account and the balances decides whether the receiver is paid.
-/

namespace BtcRelay

open Exec MerkleTree

/-- What the node says about a transaction in a block is true. -/
structure Mined (rt : Runtime) (node : BitcoinNode) (height : UInt32) (block : BlockHeader)
    (txId : Bytes32) (hex : List UInt8) (tx : Transaction) : Prop where
  identified : node.chain.Identified rt
  found : node.chain.blockAt height.toNat = some block
  lower : node.chain.firstHeight + 10 ≤ height.toNat
  located : node.getRawTransactionInfo rt txId = some (hex, block.getBlockHash rt)
  root : merkleRoot rt (node.tx block) = some block.merkleRoot
  few : (node.tx block).length ≤ 2 ^ 32
  decoded : rt.consensusDecode hex = some tx
  txid : rt.computeTxid tx = txId

/-- The relay knows a block of the chain by the header that the relayer rebuilds for it. -/
structure Knows (rt : Runtime) (main : MainState) (chain : ActiveChain) (block : BlockHeader)
    (height : UInt32) : Prop where
  committed : main.getCommitment height =
    .ok ((chain.commitedBlock block height main.lastDiffAdjustment).getCommitHash rt)
  upTo : height ≤ main.blockHeight

/-- The receiver is a wallet, and the balances allow to pay it for the outputs of a transaction, of
which there are some. -/
structure Affords (rt : Runtime) (ledger : Ledger) (receiver : Pubkey) (tx : Transaction) :
    Prop where
  wallet : ledger.owner receiver = systemProgram
  deposits : 0 < depositSum rt receiver tx
  enough : ∃ balance, ledger.depositAccount = some balance ∧
    10 * depositSum rt receiver tx ≤ balance.toNat
  fits : (ledger.lamports receiver).toNat + 10 * depositSum rt receiver tx < 2 ^ 64

section

variable {rt : Runtime} {node : BitcoinNode} {ledger : Ledger} {main : MainState}
  {block : BlockHeader} {height : UInt32} {txId : Bytes32} {hex : List UInt8} {tx : Transaction}
  {signer receiver : Pubkey} {unixTimestamp : ℤ}

theorem exists_payable_iff :
    (∃ balances, Payable rt ledger receiver tx balances) ↔ Affords rt ledger receiver tx := by
  constructor
  · rintro ⟨balances, balance, amount, funded, wallet, computed, moved⟩
    rcases depositAmount_spec computed with ⟨sum, positive⟩
    rcases transferDeposit_isOk_iff.mp ⟨balances, moved⟩ with ⟨enough, fits⟩
    rw [sum] at enough fits
    exact ⟨wallet, positive, ⟨balance, funded, enough⟩, fits⟩
  · rintro ⟨wallet, positive, ⟨balance, funded, enough⟩, fits⟩
    have bound := balance.toNat_lt
    rcases exists_depositAmount_iff.mpr ⟨positive, by omega⟩ with ⟨amount, computed⟩
    have sum := (depositAmount_spec computed).1
    have moves : ∃ balances,
        transferDeposit amount balance (ledger.lamports receiver) = .ok balances := by
      rw [transferDeposit_isOk_iff, sum]
      exact ⟨enough, fits⟩
    rcases moves with ⟨balances, moved⟩
    exact ⟨balances, balance, amount, funded, wallet, computed, moved⟩

/-- The proof that is sent for a mined transaction passes the check, which leaves the commitment
of the header. -/
theorem Mined.included_iff (mined : Mined rt node height block txId hex tx) {txPos : ℕ}
    (position : (node.tx block)[txPos]? = some txId) :
    Included rt main ⟨1, UInt32.ofNat txPos, siblings (combineHashes rt) (node.tx block) txPos,
        node.chain.commitedBlock block height main.lastDiffAdjustment⟩ txId ↔
      Knows rt main node.chain block height := by
  have one : UInt32.toNat 1 = 1 := rfl
  have lower := mined.lower
  have few := mined.few
  have top := main.blockHeight.toNat_lt
  rcases List.getElem?_eq_some_iff.mp position with ⟨inRange, _⟩
  have index : (UInt32.ofNat txPos).toNat = txPos :=
    UInt32.toNat_ofNat_of_lt' (by simp only [UInt32.size]; omega)
  have climbs : computeMerkle rt txId (UInt32.ofNat txPos)
      (siblings (combineHashes rt) (node.tx block) txPos) = block.merkleRoot := by
    rw [computeMerkle_eq, index]
    exact Option.some.inj ((climb_siblings (combineHashes rt) position).trans mined.root)
  simp only [Included, requireConfirmed_eq_ok_iff]
  constructor
  · rintro ⟨⟨confirmed, _⟩, _⟩
    exact ⟨confirmed.commitment, UInt32.le_iff_toNat_le.mpr confirmed.upTo⟩
  · rintro ⟨committed, upTo⟩
    rw [UInt32.le_iff_toNat_le] at upTo
    refine ⟨⟨⟨committed, upTo, ?_⟩, ?_⟩, climbs⟩
    · simp only [ActiveChain.commitedBlock, one]
      omega
    · simp only [ActiveChain.commitedBlock]
      omega

/-- A mined deposit can always be sent to the program. Its receiver is then paid in full exactly
if the relay knows the block by the rebuilt header, the receiver is a wallet and the balances allow
it. -/
theorem relayTx_pays_iff (mined : Mined rt node height block txId hex tx)
    (present : ledger.mainState = some main) :
    ∃ request, relayTx rt node main signer unixTimestamp txId receiver = some request ∧
      ((∃ after events, process rt ledger request = .ok (after, events)) ↔
        Knows rt main node.chain block height ∧ Affords rt ledger receiver tx) ∧
      ∀ after events, process rt ledger request = .ok (after, events) →
        PaysFor rt receiver tx ledger after := by
  rcases @exists_relayTx_siblings rt node block main txId hex signer receiver unixTimestamp height
    mined.identified mined.found mined.lower mined.located with ⟨txPos, position, sent⟩
  have included := @Mined.included_iff rt node main block height txId hex tx mined txPos position
  have processed := @process_verifySmallTx_iff rt (submission rt signer unixTimestamp []
    (Inclusion.verifySmallTx ⟨1, UInt32.ofNat txPos,
      siblings (combineHashes rt) (node.tx block) txPos,
      node.chain.commitedBlock block height main.lastDiffAdjustment⟩ hex receiver)) ledger
  refine ⟨_, sent, ?_, ?_⟩
  · rw [← included, ← exists_payable_iff]
    constructor
    · rintro ⟨after, events, paid⟩
      rcases (processed rfl).mp paid with
        ⟨other, found, balances, here, decoded, proved, payable, _⟩
      cases present.symm.trans here
      cases mined.decoded.symm.trans decoded
      rw [mined.txid] at proved
      exact ⟨proved, balances, payable⟩
    · rintro ⟨proved, balances, payable⟩
      rw [← mined.txid] at proved
      exact ⟨_, _, (processed rfl).mpr
        ⟨main, tx, balances, present, mined.decoded, proved, payable, rfl, rfl⟩⟩
  · intro after events paid
    rcases (processed rfl).mp paid with
      ⟨_, found, balances, _, decoded, _, payable, rfl, _⟩
    cases mined.decoded.symm.trans decoded
    exact paysFor_pay payable

end

namespace Sample

/-- The build for test networks, in a runtime that can decode the deposit. -/
def regtest : Runtime := deployed true [depositTx]

def fundedNode : List Request := [beginNode, request regtest [] (.deposit (2 ^ 40))]

theorem mined_depositTx :
    Mined regtest depositNode 2015 nodeStart depositTxid depositTx.serialize depositTx where
  identified := identified_node 1
  found := rfl
  lower := by decide
  located := located_depositTxid
  root := of_decide_eq_true (by decide +kernel)
  few := by decide
  decoded := of_decide_eq_true (by decide +kernel)
  txid := of_decide_eq_true (by decide +kernel)

end Sample

section

open Sample

theorem relayTx_pays_depositTx : ∃ request after events,
    relayTx regtest depositNode (mainStateAfter regtest fundedNode) emptyArray 1721030000
        depositTxid depositor = some request ∧
      process regtest (replay regtest fundedNode).2 request = .ok (after, events) ∧
      PaysFor regtest depositor depositTx (replay regtest fundedNode).2 after := by
  have checked : (replay regtest fundedNode).2.mainState.isSome = true ∧
      (mainStateAfter regtest fundedNode).getCommitment 2015 =
        .ok ((depositNode.chain.commitedBlock nodeStart 2015
          (mainStateAfter regtest fundedNode).lastDiffAdjustment).getCommitHash regtest) ∧
      2015 ≤ (mainStateAfter regtest fundedNode).blockHeight ∧
      depositSum regtest depositor depositTx = 100000 ∧
      (replay regtest fundedNode).2.depositAccount = some (2 ^ 40 + 953520) ∧
      (replay regtest fundedNode).2.lamports depositor = 2 ^ 62 ∧
      (replay regtest fundedNode).2.owner depositor = systemProgram :=
    of_decide_eq_true (by decide +kernel)
  rcases checked with ⟨started, committed, upTo, sum, funded, owned, wallet⟩
  rcases @relayTx_pays_iff regtest depositNode (replay regtest fundedNode).2
    (mainStateAfter regtest fundedNode) nodeStart 2015 depositTxid depositTx.serialize depositTx
    emptyArray depositor 1721030000 mined_depositTx (mainState_replay started) with
    ⟨request, sent, pays, paid⟩
  have affords : Affords regtest (replay regtest fundedNode).2 depositor depositTx := by
    refine ⟨wallet, ?_, ⟨_, funded, ?_⟩, ?_⟩
    · rw [sum]
      decide
    · rw [sum]
      decide
    · rw [sum, owned]
      decide
  rcases pays.mpr ⟨⟨committed, upTo⟩, affords⟩ with ⟨after, events, processed⟩
  exact ⟨request, after, events, sent, processed, paid after events processed⟩

end

end BtcRelay
