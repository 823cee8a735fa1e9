import PaxosLog.Replica.Acceptor
import PaxosLog.Replica.Proposer

/-!
# Steps of a replica

`Replica.step` handles one input at a given time: the replica after it and the effects in order, or
a fault, after which the replica is not to be used any more.

`Turn.onMessage` is `handle_message`, and `Input` has a case for each way into a replica:
`on_client_request`, `handle_message`, `start_election` and `on_backoff_elapsed`.

Out of scope: the effects of a step that faults. They are not handed out with the fault, whereas an
environment that acts at once has acted on those before the fault by then: messages are sent, and
clients answered. No statement about a step that faults says what left the replica.
-/

namespace PaxosLog

/-- What a replica reacts to. -/
inductive Input where
  /-- A request of a client, new or submitted again. -/
  | request (r : ClientRequest)
  /-- A message of a replica. -/
  | message (m : Message)
  /-- An election is to be started. -/
  | elect
  /-- The delay before another election has passed. -/
  | backoffElapsed
deriving DecidableEq

variable {ρ σ : Type} [RandomSource ρ] [StateMachine σ]

/-- Handles a message. -/
def Turn.onMessage (t : Turn ρ σ) : Message → Except Fault (Turn ρ σ)
  | .prepare m => t.onPrepare m
  | .promise m => t.onPromise m
  | .accept m => t.onAccept m
  | .accepted m => t.onAccepted m
  | .commit m => t.onCommit m

/-- Handles an input. -/
def Turn.onInput (t : Turn ρ σ) : Input → Except Fault (Turn ρ σ)
  | .request r => t.onRequest r
  | .message m => t.onMessage m
  | .elect => t.elect
  | .backoffElapsed => t.onBackoffElapsed

/-- One step: what an input makes of a replica, and what leaves it meanwhile. -/
def Replica.step (now : Duration) (r : Replica ρ σ) (input : Input) :
    Except Fault (Replica ρ σ × List Effect) :=
  (Turn.onInput { r with now, effects := [] } input).map fun t => (t.toReplica, t.effects)

end PaxosLog
