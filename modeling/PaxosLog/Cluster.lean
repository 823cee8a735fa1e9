import PaxosLog.Random.Script
import PaxosLog.Replica.Step

/-!
# A cluster under a scheduler

Replicas `1` to `n` and the messages between them in one queue. What happens next is up to whoever
gives the commands: messages can be delivered in any order, repeatedly or not at all. A request that
a replica hands back is submitted to it again at once. Delays before another election pass only when
`Schedule.settle` or `Schedule.backoffElapsed` says so.

`Schedule` lists the commands, `Cluster.step` carries one out, and `Cluster.Report` is what can be
seen of it. Schedules are tied to the network in the theory (`Network.mirrored_of_schedule`).

Out of scope: clocks, since all steps are taken at time zero, and what happens after a fault. The
cluster ends with it, and a command that faults has no report.
-/

namespace PaxosLog

/-- A message under way. -/
structure Envelope where
  sender : ReplicaId
  receiver : ReplicaId
  message : Message
deriving DecidableEq

/-- What can be done with a cluster. -/
inductive Schedule where
  /-- A client submits a command to a replica. -/
  | submit (id : ReplicaId) (command : Bytes)
  /-- Message number `k`, counted round the queue, is taken out and delivered. -/
  | deliver (k : Nat)
  /-- Message number `k` is delivered and stays in the queue. -/
  | repeated (k : Nat)
  /-- Message number `k` is lost. -/
  | drop (k : Nat)
  /-- All messages to a replica are lost. -/
  | dropTo (id : ReplicaId)
  /-- All messages from a replica are lost. -/
  | dropFrom (id : ReplicaId)
  /-- A replica starts an election. -/
  | elect (id : ReplicaId)
  /-- A replica's delay passes. -/
  | backoffElapsed (id : ReplicaId)
  /-- Up to `limit` messages are delivered from the front of the queue. -/
  | run (limit : Nat)
  /-- Messages are delivered, and delays pass whenever the queue has run empty, until neither is
  left or `limit` messages were delivered. -/
  | settle (limit : Nat)
deriving DecidableEq

/-- Replicas, the messages under way, the replicas that wait for a delay, and the clients; and what
happened since the last report. -/
structure Cluster where
  replicas : List (Replica Script Journal)
  queue : List Envelope
  due : List ReplicaId
  clients : Clients
  delivered : List Envelope
  effects : List (ReplicaId × Effect)

namespace Cluster

/-- What happened during a command: the delivered messages, the effects of the replicas, and the
requests that were seen to end. -/
structure Report where
  delivered : List Envelope
  effects : List (ReplicaId × Effect)
  ended : List (Nat × Receiver)
deriving DecidableEq

/-- Replicas numbered from `id` on, one for each script. -/
def startReplicas (n : Nat) (config : Config) :
    (id : ReplicaId) → List (List UInt64) → Except Failure (List (Replica Script Journal))
  | _, [] => .ok []
  | id, draws :: rest => do
    let replica ← Replica.start id n config ⟨draws⟩ Journal.empty
    let replicas ← startReplicas n config (id + 1) rest
    return replica :: replicas

/-- A fresh cluster of `n` replicas. Scripts that are missing are empty. -/
def start (n : Nat) (config : Config) (scripts : List (List UInt64)) : Except Failure Cluster :=
  (startReplicas n config 1 (List.ofFn fun i : Fin n => scripts[i.val]?.getD [])).map
    fun replicas => ⟨replicas, [], [], .none, [], []⟩

/-- The replica with identity `id`. -/
def replica? (c : Cluster) (id : ReplicaId) : Option (Replica Script Journal) :=
  c.replicas.find? (·.id = id)

/-- The messages that an effect of replica `id` puts under way. -/
def envelopes (c : Cluster) (id : ReplicaId) : Effect → List Envelope
  | .broadcast m => (c.replicas.filter (·.id ≠ id)).map fun r => ⟨id, r.id, m⟩
  | .send receiver m =>
    if c.replicas.any (·.id = receiver) then [⟨id, receiver, m⟩] else []
  | _ => []

/-- Notes an effect of replica `id`. -/
def absorb (id : ReplicaId) (c : Cluster) (e : Effect) : Cluster :=
  let c := { c with effects := c.effects ++ [(id, e)], queue := c.queue ++ c.envelopes id e }
  match e with
  | .reply request reply => { c with clients := c.clients.answer request reply }
  | .scheduleElection _ => if id ∈ c.due then c else { c with due := c.due ++ [id] }
  | _ => c

/-- The requests among the effects that were handed back. -/
def retries (effects : List Effect) : List ClientRequest :=
  effects.filterMap fun
    | .retry request => some request
    | _ => none

/-- Submits requests to a replica one after another; those that it hands back meanwhile queue up
behind. Handing one back takes it out of a log entry, so `count` submissions do for as many
requests as are waiting or owned by entries. -/
def resubmit (now : Duration) : (count : Nat) → List ClientRequest → Replica Script Journal →
    Except Fault (Replica Script Journal × List Effect)
  | count + 1, request :: waiting, r => do
    let (r, effects) ← r.step now (.request request)
    let (r, rest) ← resubmit now count (waiting ++ retries effects) r
    return (r, effects ++ rest)
  | _, _, r => .ok (r, [])

/-- Gives an input to a replica, and then the requests that it hands back. -/
def feed (id : ReplicaId) (input : Input) (c : Cluster) : Except Fault Cluster :=
  match c.replica? id with
  | none => .ok c
  | some r => do
    let (r, effects) ← r.step .zero input
    let back := retries effects
    let (r, more) ← resubmit .zero (back.length + r.log.requests.length) back r
    let c := { c with replicas := c.replicas.map fun old => if old.id = id then r else old }
    return (effects ++ more).foldl (absorb id) c

/-- Delivers a message. -/
def arrive (e : Envelope) (c : Cluster) : Except Fault Cluster :=
  feed e.receiver (.message e.message) { c with delivered := c.delivered ++ [e] }

/-- Delivers up to `limit` messages from the front; also how many may still be delivered. -/
def run : (limit : Nat) → Cluster → Except Fault (Nat × Cluster)
  | 0, c => .ok (0, c)
  | limit + 1, c =>
    match c.queue with
    | [] => .ok (limit + 1, c)
    | e :: queue => arrive e { c with queue } >>= run limit

/-- Delivers messages and lets delays pass in turn, for at most `rounds` turns. Every turn but the
last one delivers something, so `limit + 2` turns are enough. -/
def settle : (rounds limit : Nat) → Cluster → Except Fault Cluster
  | 0, _, c => .ok c
  | rounds + 1, limit, c => do
    let (limit, c) ← run limit c
    let due := c.due.mergeSort (· ≤ ·)
    let c := { c with due := [] }
    if limit = 0 ∨ due = [] then
      return c
    let c ← due.foldlM (fun c id => feed id .backoffElapsed c) c
    settle rounds limit c

/-- The place in the queue that `k` counts to. -/
def place (c : Cluster) (k : Nat) : Nat := k % c.queue.length

/-- Carries out a command. -/
def command (c : Cluster) : Schedule → Except Fault Cluster
  | .submit id command =>
    let (request, clients) := c.clients.submit command
    feed id (.request request) { c with clients }
  | .deliver k =>
    match c.queue[c.place k]? with
    | none => .ok c
    | some e => arrive e { c with queue := c.queue.eraseIdx (c.place k) }
  | .repeated k =>
    match c.queue[c.place k]? with
    | none => .ok c
    | some e => arrive e c
  | .drop k => .ok { c with queue := c.queue.eraseIdx (c.place k) }
  | .dropTo id => .ok { c with queue := c.queue.filter (·.receiver ≠ id) }
  | .dropFrom id => .ok { c with queue := c.queue.filter (·.sender ≠ id) }
  | .elect id => feed id .elect c
  | .backoffElapsed id => feed id .backoffElapsed c
  | .run limit => (run limit c).map (·.2)
  | .settle limit => settle (limit + 2) limit c

/-- Carries out a command and reports what happened. -/
def step (c : Cluster) (s : Schedule) : Except Fault (Report × Cluster) :=
  (command { c with delivered := [], effects := [] } s).map fun c =>
    let (ended, clients) := c.clients.collect
    (⟨c.delivered, c.effects, ended⟩, { c with clients })

end Cluster

end PaxosLog
