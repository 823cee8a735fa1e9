import PaxosLog.Quorum
import PaxosLog.Backoff

/-!
# Configuration of a replica

How long to wait before another election, and how many acknowledgements each phase needs. A phase
without a size of its own takes a majority.

* `Config.standard`, `Config.backoff` and `Config.quorums` are the default configuration, `backoff`
  and `quorums`. `validate` is `quorums` with its result left out.
* How a configuration is read from a text (`from_json`) is in the module on the wire format.
-/

namespace PaxosLog

/-- The parameters of a replica. -/
structure Config where
  /-- The fixed part of the delay before another election, in milliseconds. -/
  backoffBound : UInt64
  /-- The exclusive bound of the random part, in milliseconds. -/
  backoffJitter : UInt64
  /-- The promises needed to lead. -/
  phase1Quorum : Option UInt64
  /-- The votes needed to choose a value. -/
  phase2Quorum : Option UInt64
deriving DecidableEq, Repr

namespace Config

/-- Delays of 100 to 200 milliseconds, and majorities. -/
def standard : Config := ⟨100, 100, none, none⟩

/-- How to draw the delay before another election. -/
def backoff (c : Config) : BackoffPolicy := ⟨.ofMillis c.backoffBound, .ofMillis c.backoffJitter⟩

/-- The thresholds in a cluster of `n` replicas. -/
def quorums (c : Config) (n : Nat) : Except Failure QuorumSpec :=
  match c.phase1Quorum, c.phase2Quorum with
  | none, none => QuorumSpec.majority n
  | phase1, phase2 =>
    QuorumSpec.flexible n ((phase1.map (·.toNat)).getD (QuorumSpec.majorityOf n))
      ((phase2.map (·.toNat)).getD (QuorumSpec.majorityOf n))

end Config

end PaxosLog
