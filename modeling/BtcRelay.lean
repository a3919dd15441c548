import BtcRelay.Foundations.BigEndian
import BtcRelay.Foundations.CircularBuffer
import BtcRelay.Foundations.HeightLog
import BtcRelay.Foundations.History
import BtcRelay.Foundations.MerkleTree
import BtcRelay.Foundations.OrderStatistics
import BtcRelay.Foundations.MovingMedian
import BtcRelay.Foundations.Readers
import BtcRelay.Foundations.Schedules
import BtcRelay.Foundations.Script
import BtcRelay.Program.Machine
import BtcRelay.Program.ArrayUtils
import BtcRelay.Program.Runtime
import BtcRelay.Program.Structs
import BtcRelay.Program.State
import BtcRelay.Program.Utils
import BtcRelay.Program.Handlers
import BtcRelay.Program.Instructions
import BtcRelay.Bitcoin.Compact
import BtcRelay.Bitcoin.HeaderChain
import BtcRelay.Bitcoin.Targets
import BtcRelay.Bitcoin.Rounding
import BtcRelay.Bitcoin.Retargets
import BtcRelay.Chain.Failures
import BtcRelay.Chain.HeaderChecks
import BtcRelay.Chain.Submission
import BtcRelay.Chain.Ring
import BtcRelay.Chain.Lineage
import BtcRelay.Chain.LightClient
import BtcRelay.Chain.Adoption
import BtcRelay.Chain.Steps
import BtcRelay.Chain.Invariant
import BtcRelay.Foundations.Sha256
import BtcRelay.Network.Deployment
import BtcRelay.Chain.Runs
import BtcRelay.Network.Replay
import BtcRelay.Network.Locks
import BtcRelay.Chain.Progress
import BtcRelay.Network.EasyBlocks
import BtcRelay.Chain.LightClientCompleteness
import BtcRelay.Chain.LightClientSoundness
import BtcRelay.Chain.TipConsistency
import BtcRelay.Chain.Batching
import BtcRelay.Chain.ForkIds
import BtcRelay.Chain.ForkIntegrity
import BtcRelay.Chain.ForkPaths
import BtcRelay.Chain.Window
import BtcRelay.Chain.Slots
import BtcRelay.Chain.MostWork
import BtcRelay.Chain.AddedWork
import BtcRelay.Chain.BestChain
import BtcRelay.Chain.EventLog
import BtcRelay.Chain.TipOrder
import BtcRelay.Chain.Resubmission
import BtcRelay.Chain.Reorganisations
import BtcRelay.Chain.MedianTime
import BtcRelay.Chain.WorkBounds
import BtcRelay.Bridge.Payouts
import BtcRelay.Bridge.DoubleMint
import BtcRelay.Bridge.Solvency
import BtcRelay.Bridge.DepositScript
import BtcRelay.Bridge.Confirmations
import BtcRelay.Bridge.Uploads
import BtcRelay.Bridge.Interference
import BtcRelay.Bridge.Backing
import BtcRelay.Bridge.Replays
import BtcRelay.Relayer.Node
import BtcRelay.Relayer.Proof
import BtcRelay.Bridge.Inclusion
import BtcRelay.Relayer.Blocks
import BtcRelay.Relayer.Transactions
import BtcRelay.Relayer.Stalls
import BtcRelay.Relayer.Deposits
import BtcRelay.Faucet.RateLimit
import BtcRelay.Faucet.Responses
import BtcRelay.Transactions.Parser
import BtcRelay.Transactions.Serialization
import BtcRelay.Transactions.Readings
import BtcRelay.Transactions.Layout
import BtcRelay.Transactions.Commitment
import BtcRelay.Transactions.RoundTrip
import BtcRelay.Transactions.TxVerify
