import PaxosLog.Config
import PaxosLog.Log
import PaxosLog.Machine

/-!
# Replicas

A replica plays every role of the protocol: proposer while it leads, acceptor for the ballots of
others, learner of what was chosen. It handles one input to its end before the next one.

What leaves a replica during a step is an `Effect`; a step lists its effects in the order in which
they happen. `Turn` is a replica in the middle of a step, with the time and the effects so far, and
the step itself is a composition of functions `Turn → Except Fault Turn`. This module holds the
parts of steps that several roles share.

| here | operation of a replica |
|---|---|
| `Replica.start` | `new` |
| `Replica.leader?`, `Replica.status` | `leader`, `status` |
| `Replica.hasOutstandingWork` | `has_outstanding_work` |
| `Turn.observeBallot` | `observe_ballot`, for its change of the state |
| `Turn.scheduleBackoff` | `schedule_backoff` |
| `Turn.withLog` | `retry_request`, for each request that the log handed out |

`Effect` has a case for each operation of the environment that acts on the world: `broadcast`,
`send`, `retry`, `schedule_election` and the drawing of a random number. Two more cases are the runs
of the state machine and the replies, which the environment does not see. What the environment only
answers is a field (`id`, the size of the cluster) or an argument (`now`).

Out of scope: logging, and the time that a step takes. `now` is one time for the whole step.
-/

namespace PaxosLog

/-- Something a replica does to its surroundings. -/
inductive Effect where
  /-- Sends a message to every other replica. -/
  | broadcast (m : Message)
  /-- Sends a message to one replica. -/
  | send (receiver : ReplicaId) (m : Message)
  /-- Hands a request back, to be submitted again. -/
  | retry (request : ClientRequest)
  /-- Asks to be told when the delay has passed. -/
  | scheduleElection (delay : Duration)
  /-- Draws a random number. -/
  | draw (range : Draw)
  /-- Runs the command of a slot on the state machine, with this result. -/
  | execute (slot : Slot) (command value : Bytes)
  /-- Answers a request, which uses it up. -/
  | reply (request : ClientRequest) (reply : CommandReply)
deriving DecidableEq

/-- One replica, with its source of random numbers and its state machine. -/
structure Replica (ρ σ : Type) where
  id : ReplicaId
  quorums : QuorumSpec
  log : Log
  /-- The highest ballot that this replica has seen or opened. -/
  ballot : Ballot
  /-- A phase-1 quorum promised `ballot` to this replica, and no higher ballot came since. -/
  active : Bool
  /-- The promises of the election in flight. -/
  promises : Quorum
  /-- Requests that wait until this replica leads, in order. -/
  pending : List ClientRequest
  backoff : BackoffScheduler
  source : ρ
  machine : σ

namespace Replica

variable {ρ σ : Type}

/-- A replica of a cluster of `n` that has seen nothing yet. -/
def start (id : ReplicaId) (n : Nat) (config : Config) (source : ρ) (machine : σ) :
    Except Failure (Replica ρ σ) :=
  (config.quorums n).map fun quorums =>
    { id
      quorums
      log := .empty
      ballot := .zero
      active := false
      promises := .empty
      pending := []
      backoff := .idle config.backoff
      source
      machine }

/-- The owner of the current ballot: the leader, or a replica that tries to lead. -/
def leader? (r : Replica ρ σ) : Option ReplicaId := r.ballot.owner

/-- Some request that this replica holds is not agreed on. -/
def hasOutstandingWork (r : Replica ρ σ) : Bool :=
  !r.pending.isEmpty || r.log.hasOwnedUncommitted

/-- The requests that this replica holds. -/
def requests (r : Replica ρ σ) : List ClientRequest := r.pending ++ r.log.requests

end Replica

/-- A snapshot of a replica. -/
structure Status where
  id : ReplicaId
  ballot : Ballot
  /-- The replica leads under `ballot`. -/
  leader : Bool
  executeCursor : Slot
  highestSlot : Slot
  /-- How many requests wait for leadership. -/
  pending : Nat
  backoffInFlight : Bool
deriving DecidableEq, Repr

/-- The snapshot of a replica. -/
def Replica.status {ρ σ : Type} (r : Replica ρ σ) : Status :=
  ⟨r.id, r.ballot, r.active, r.log.executeCursor, r.log.highestSlot, r.pending.length,
    r.backoff.inFlight⟩

/-- A replica during a step: the time of the step, and its effects so far. -/
structure Turn (ρ σ : Type) extends Replica ρ σ where
  now : Duration
  effects : List Effect

namespace Turn

variable {ρ σ : Type}

/-- One more effect. -/
def emit (t : Turn ρ σ) (e : Effect) : Turn ρ σ := { t with effects := t.effects ++ [e] }

/-- Several more effects. -/
def emitAll (t : Turn ρ σ) (es : List Effect) : Turn ρ σ := { t with effects := t.effects ++ es }

/-- Takes up a log that handed out `displaced`, and hands these requests back. -/
def withLog (t : Turn ρ σ) (log : Log) (displaced : List ClientRequest) : Turn ρ σ :=
  { t with log }.emitAll (displaced.map .retry)

/-- Adopts a strictly higher ballot, which ends any leadership. -/
def observeBallot (t : Turn ρ σ) (ballot : Ballot) : Turn ρ σ :=
  if t.ballot < ballot then { t with ballot, active := false } else t

/-- Schedules another election, unless one is outstanding. -/
def scheduleBackoff [RandomSource ρ] (t : Turn ρ σ) : Except Fault (Turn ρ σ) :=
  match t.backoff.arm t.source with
  | (.error f, _, _) => .error f
  | (.ok none, _, _) => .ok t
  | (.ok (some delay), backoff, source) =>
    .ok ({ t with backoff, source }.emitAll
      (t.backoff.policy.draws.map Effect.draw ++ [Effect.scheduleElection delay]))

/-- Schedules another election if work would otherwise be left lying. -/
def scheduleBackoffIfNeeded [RandomSource ρ] (t : Turn ρ σ) : Except Fault (Turn ρ σ) :=
  if t.hasOutstandingWork then t.scheduleBackoff else .ok t

end Turn

end PaxosLog
