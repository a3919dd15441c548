import BtcRelay.Program.Machine

/-!
# What the program calls outside its own sources

The hash functions, the derivation of program addresses and the `bitcoin` crate's
transaction decoder are not part of the repository. They are the fields of
`Runtime`, a parameter of the whole model, together with the build's
`bitcoin_testnet` feature and the limits the Solana runtime imposes on new accounts.
-/

namespace BtcRelay

structure TxOut where
  value : UInt64
  scriptPubkey : List UInt8
deriving DecidableEq

structure TxIn where
  previousTxid : Bytes32
  previousVout : UInt32
  scriptSig : List UInt8
  sequence : UInt32
  witness : List (List UInt8)
deriving DecidableEq

structure Transaction where
  version : UInt32
  lockTime : UInt32
  input : List TxIn
  output : List TxOut
deriving DecidableEq

structure Runtime where
  /-- Whether the program is built with the `bitcoin_testnet` feature. -/
  bitcoinTestnet : Bool
  sha256 : List UInt8 → Bytes32
  hash160 : List UInt8 → List.Vector UInt8 20
  /-- The address derived from seeds for this program. -/
  findProgramAddress : List (List UInt8) → Pubkey
  consensusDecode : List UInt8 → Option Transaction
  computeTxid : Transaction → Bytes32
  /-- The largest account an instruction can create. -/
  maxAccountSpace : ℕ
  rentExemptMinimum : ℕ → UInt64

namespace Runtime

def sha256d (rt : Runtime) (bytes : List UInt8) : Bytes32 :=
  rt.sha256 (rt.sha256 bytes).toList

end Runtime

end BtcRelay
