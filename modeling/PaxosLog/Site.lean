import PaxosLog.Host
import PaxosLog.Wire

/-!
# Sites

A site is a process with several hosts, a routing table that says which host takes the messages to
a replica, a clock with timers, and the clients of the hosts. Messages pass through the wire format
on their way; a message to a replica without a route, or to a host that stopped, is lost.

Whatever has something to do queues up for its turn. A host joins the queue when an event comes into
its inbox or when it is killed. In front, it handles its events, also those that it causes itself,
until its inbox is empty, and then the next in the queue has its turn; a killed host ends at its
turn. A timer joins the queue when a host starts it, and counts from its turn on; with no delay left
it goes off there and then.

| here | operation |
|---|---|
| `handle` | one round of the loop of the driver's `run` |
| `absorb` | `broadcast`, `send`, `retry` and `schedule_election` of the driver's environment |
| `startTimer` | the task that `schedule_election` starts |
| `register`, `disconnect`, `send` | `register`, `disconnect` and `send` of the local transport |
| `post` | the sending of an event into the inbox of a driver |
| `discard`, `remove` | the dropping of a receiving end, and of a driver |
| `turn`, `run` | the executor that the drivers and timers share, and its work until it is idle |

Out of scope: executors with several threads, and codecs other than the one of the wire format. Also
out of scope are the effects of a step that faults: `Site.feed` lets the host go with everything it
holds, and what its replica sent earlier in that step does not arrive, although a driver has sent it
by then.
-/

namespace PaxosLog

/-- An outstanding delay of a host. -/
structure Timer where
  /-- When the delay has passed, in nanoseconds. -/
  due : Nat
  /-- The number of the host. -/
  host : Nat
deriving DecidableEq, Repr

/-- Something that waits for its turn. -/
inductive Task where
  /-- A host has events to handle, or was killed. -/
  | host (k : Nat)
  /-- A timer was started. -/
  | timer (t : Timer)
deriving DecidableEq, Repr

/-- How a question for a status stands. -/
inductive Query where
  | waiting
  | answered (s : Status)
  /-- The host stopped before it came to the question. -/
  | refused
deriving DecidableEq, Repr

/-- A stopped host, as its replica was when it was handed to its owner. -/
structure Ended (ρ σ : Type) where
  members : List ReplicaId
  replica : Replica ρ σ

/-- Hosts by number, routes, timers, clients and questions, and what happened since the last
report. -/
structure Site (ρ σ : Type) where
  hosts : List (Host ρ σ)
  /-- For a replica, the number of the host that takes its messages. -/
  routes : List (ReplicaId × Nat)
  timers : List Timer
  /-- The time, in nanoseconds. -/
  now : Nat
  /-- What waits for its turn, in order. A host waits at most once. -/
  ready : List Task
  clients : Clients
  queries : List Query
  /-- What left the replicas, with the replica's identity. -/
  effects : List (ReplicaId × Effect)

namespace Site

variable {ρ σ : Type}

/-- No hosts. -/
def empty : Site ρ σ := ⟨[], [], [], 0, [], .none, [], []⟩

/-- Changes host number `k`. -/
def modifyHost (site : Site ρ σ) (k : Nat) (f : Host ρ σ → Host ρ σ) : Site ρ σ :=
  { site with hosts := site.hosts.modify k f }

/-- Host number `k` queues up for its turn, unless it does already. -/
def wake (site : Site ρ σ) (k : Nat) : Site ρ σ :=
  { site with
    ready := if .host k ∈ site.ready then site.ready else site.ready ++ [.host k] }

/-- Puts an event into the inbox of host number `k`; `false` if it takes none any more. -/
def post (site : Site ρ σ) (k : Nat) (e : Event) : Bool × Site ρ σ :=
  match site.hosts[k]? with
  | none => (false, site)
  | some h =>
    if h.isOpen then (true, (site.modifyHost k (·.post e)).wake k) else (false, site)

/-! ## Routes -/

/-- Messages to replica `id` go to host number `k` from now on. -/
def register (site : Site ρ σ) (id : ReplicaId) (k : Nat) : Site ρ σ :=
  { site with routes := (id, k) :: site.routes.filter (·.1 ≠ id) }

/-- Messages to replica `id` are lost from now on. -/
def disconnect (site : Site ρ σ) (id : ReplicaId) : Site ρ σ :=
  { site with routes := site.routes.filter (·.1 ≠ id) }

/-- The host that takes the messages to replica `id`. -/
def route? (site : Site ρ σ) (id : ReplicaId) : Option Nat :=
  (site.routes.find? (·.1 = id)).map (·.2)

/-- Sends a message over the wire. -/
def send (site : Site ρ σ) (receiver : ReplicaId) (m : Message) : Site ρ σ :=
  match decode (encode m), site.route? receiver with
  | .ok m, some k => (site.post k (.message m)).2
  | _, _ => site

/-! ## Handling events -/

/-- Notes an effect of a replica. -/
def note (site : Site ρ σ) (id : ReplicaId) (e : Effect) : Site ρ σ :=
  { site with effects := site.effects ++ [(id, e)] }

/-- Carries out an effect of the replica of host number `k`. A broadcast is a message to each of
the other members, in ascending order, and a request that is handed back goes to the end of the
host's own inbox. -/
def absorb (k : Nat) (h : Host ρ σ) (site : Site ρ σ) : Effect → Site ρ σ
  | .broadcast m =>
    h.peers.foldl (fun site peer => (site.note h.id (.send peer m)).send peer m) site
  | .send receiver m => (site.note h.id (.send receiver m)).send receiver m
  | .retry request => (site.post k (.request request)).2
  | .scheduleElection delay =>
    { site with ready := site.ready ++ [.timer ⟨site.now + delay.nanos, k⟩] }
  | .draw range => site.note h.id (.draw range)
  | .execute slot command value => site.note h.id (.execute slot command value)
  | .reply request reply => { site with clients := site.clients.answer request reply }

/-- Events that no host will handle: their requests are dropped, their questions refused. -/
def discard (site : Site ρ σ) (events : List Event) : Site ρ σ :=
  events.foldl
    (fun site e =>
      match e with
      | .request r => { site with clients := site.clients.lose [r] }
      | .status query => { site with queries := site.queries.set query .refused }
      | _ => site)
    site

/-- Host number `k` is gone, with everything that it holds. -/
def remove (site : Site ρ σ) (k : Nat) : Site ρ σ :=
  match site.hosts[k]? with
  | some h =>
    let site := { site with clients := site.clients.lose h.requests }
    (site.discard h.inbox).modifyHost k fun h => { h with state := .gone }
  | none => site

variable [RandomSource ρ] [StateMachine σ]

/-- The replica of host number `k` takes an input. A host whose replica faults is gone. -/
def feed (site : Site ρ σ) (k : Nat) (h : Host ρ σ) (replica : Replica ρ σ) (inbox : List Event)
    (input : Input) : Site ρ σ :=
  match (Duration.ofNanos site.now).bind fun now => replica.step now input with
  | .error _ => site.remove k
  | .ok (replica, effects) =>
    effects.foldl (absorb k h)
      (site.modifyHost k fun h => { h with state := .running replica inbox })

/-- Host number `k` handles the first event of its inbox. -/
def handle (site : Site ρ σ) (k : Nat) (h : Host ρ σ) (replica : Replica ρ σ) :
    List Event → Site ρ σ
  | [] => site
  | .message m :: inbox => site.feed k h replica inbox (.message m)
  | .request r :: inbox => site.feed k h replica inbox (.request r)
  | .backoffElapsed :: inbox => site.feed k h replica inbox .backoffElapsed
  | .status query :: inbox =>
    { site with queries := site.queries.set query (.answered replica.status) }.modifyHost k
      fun h => { h with state := .running replica inbox }
  | .shutdown :: inbox =>
    (site.discard inbox).modifyHost k fun h => { h with state := .returned replica }

/-- A timer goes off if its delay has passed, and is set otherwise. -/
def startTimer (site : Site ρ σ) (t : Timer) : Site ρ σ :=
  if t.due ≤ site.now then (site.post t.host .backoffElapsed).2
  else { site with timers := site.timers ++ [t] }

/-- What is in front of the queue has its turn. A host handles one event, and leaves the queue when
it has none; a killed one is gone. -/
def turn (site : Site ρ σ) : Site ρ σ :=
  match site.ready with
  | [] => site
  | .timer t :: rest => { site with ready := rest }.startTimer t
  | .host k :: rest =>
    match site.hosts[k]? with
    | none => { site with ready := rest }
    | some h =>
      match h.state with
      | .running replica (e :: inbox) => site.handle k h replica (e :: inbox)
      | .killed .. => { site with ready := rest }.remove k
      | _ => { site with ready := rest }

/-- Gives turns until the queue is empty, but not more than `limit`. -/
def run : (limit : Nat) → Site ρ σ → Site ρ σ
  | 0, site => site
  | limit + 1, site => if site.ready = [] then site else run limit site.turn

end Site

end PaxosLog
