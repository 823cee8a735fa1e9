import PaxosLog.Random.Script
import PaxosLog.Site

/-!
# Calls on a site

What can be asked of a site from outside: submissions, questions and shutdowns for its hosts,
changes of the routing table, the killing of a host, and the passing of time. Calls handle nothing
themselves: `Site.step` makes some calls, or lets some time pass, gives turns until nothing waits,
and reports what came of it.

| here | operation |
|---|---|
| `Call.submit`, `status`, `deliver`, `shutdown` | these operations of a driver's handle |
| `Call.register`, `disconnect` | these operations of the local transport |
| `Call.kill` | the driver is dropped in the middle of its `run` |
| `Site.startHosts` | `new` for each driver, and a route to it |
| `Site.fireUntil` | time moves on, from one timer that is due to the next |

`Site.report` takes the replicas of the hosts that stopped, and lets go of them with what they hold.

Out of scope: callers that wait. A call is answered at once, and how the request or question ended
is part of a later report.
-/

namespace PaxosLog

/-- Something asked of a site. Hosts are named by the identities of their replicas. -/
inductive Call where
  /-- A client submits a command. -/
  | submit (id : ReplicaId) (command : Bytes)
  /-- The status of a replica is asked for. -/
  | status (id : ReplicaId)
  /-- A message is handed to a host, past the routing table. -/
  | deliver (id : ReplicaId) (m : Message)
  /-- A host is to stop after what it has to do. -/
  | shutdown (id : ReplicaId)
  /-- Messages to a replica are routed to its host. -/
  | register (id : ReplicaId)
  /-- Messages to a replica are lost from now on. -/
  | disconnect (id : ReplicaId)
  /-- A host is to end without handling what it has to do. -/
  | kill (id : ReplicaId)
deriving DecidableEq

/-- The answer to a call. -/
inductive CallAnswer where
  | done
  | refused (e : Error)
  /-- Whether there was a host to kill. -/
  | existed (b : Bool)
deriving DecidableEq, Repr

/-- Calls that are made together, or time that passes. -/
inductive SiteStep where
  | calls (cs : List Call)
  | advance (time : Duration)

namespace Site

variable {ρ σ : Type}

/-- The number of the host of replica `id`. -/
def hostOf? (site : Site ρ σ) (id : ReplicaId) : Option Nat :=
  site.hosts.findIdx? (·.id = id)

/-- Puts an event into the inbox of the host of replica `id`; refused if that host has stopped. -/
def call (site : Site ρ σ) (id : ReplicaId) (e : Event) : CallAnswer × Site ρ σ :=
  match site.hostOf? id with
  | none => (.refused .shutdown, site)
  | some k =>
    match site.post k e with
    | (true, site) => (.done, site)
    | (false, site) => (.refused .shutdown, site)

/-- The host of replica `id` is killed; whether it was still running. -/
def killHost (site : Site ρ σ) (id : ReplicaId) : Bool × Site ρ σ :=
  match site.hostOf? id with
  | none => (false, site)
  | some k => (site.hosts[k]?.any Host.isRunning, (site.modifyHost k Host.kill).wake k)

/-- Makes a call. A submission takes a ticket also if it is refused, but then nobody waits for its
reply; a question that is refused takes no number. -/
def make (site : Site ρ σ) : Call → CallAnswer × Site ρ σ
  | .submit id command =>
    let (request, clients) := site.clients.submit command
    match { site with clients }.call id (.request request) with
    | (.done, site) => (.done, site)
    | (answer, site) =>
      (answer, { site with clients := (site.clients.hangUp request.ticket).2 })
  | .status id =>
    let query := site.queries.length
    match { site with queries := site.queries ++ [Query.waiting] }.call id (.status query) with
    | (.done, site) => (.done, site)
    | (answer, _) => (answer, site)
  | .deliver id m => site.call id (.message m)
  | .shutdown id => site.call id .shutdown
  | .register id =>
    match site.hostOf? id with
    | some k => (.done, site.register id k)
    | none => (.done, site)
  | .disconnect id => (.done, site.disconnect id)
  | .kill id =>
    let (existed, site) := site.killHost id
    (.existed existed, site)

/-- Makes calls in order. -/
def makeAll (site : Site ρ σ) : List Call → List CallAnswer × Site ρ σ
  | [] => ([], site)
  | c :: rest =>
    let (answer, site) := site.make c
    let (answers, site) := site.makeAll rest
    (answer :: answers, site)

/-! ## Time -/

/-- The timer that is due first, if it is due by `time`. -/
def firstDue? (site : Site ρ σ) (time : Nat) : Option Timer :=
  (site.timers.filter (·.due ≤ time)).foldl
    (fun best t =>
      match best with
      | none => some t
      | some b => if t.due < b.due then some t else some b)
    none

variable [RandomSource ρ] [StateMachine σ]

/-- Lets timers go off up to `time`, each followed by a run, for at most `rounds`
timers. -/
def fireUntil (limit time : Nat) : (rounds : Nat) → Site ρ σ → Site ρ σ
  | 0, site => site
  | rounds + 1, site =>
    match site.firstDue? time with
    | none => { site with now := time }
    | some t =>
      let site := { site with timers := site.timers.erase t, now := max site.now t.due }
      fireUntil limit time rounds (run limit (site.post t.host .backoffElapsed).2)

/-! ## Steps -/

/-- What came of a step: the answers to the calls, what left the replicas, the requests that were
seen to end, the questions, and the hosts that stopped after a shutdown, by identity. -/
structure Report (ρ σ : Type) where
  answers : List CallAnswer
  effects : List (ReplicaId × Effect)
  ended : List (Nat × Receiver)
  queries : List Query
  stopped : List (ReplicaId × Ended ρ σ)

/-- The hosts that stopped after a shutdown and whose replicas were not let go yet. -/
def stopped (site : Site ρ σ) : List (ReplicaId × Ended ρ σ) :=
  (site.hosts.filterMap fun h =>
    match h.state with
    | .returned replica => some (h.id, ⟨h.members, replica⟩)
    | _ => none).mergeSort (·.1 ≤ ·.1)

/-- Lets go of the replicas of stopped hosts; the requests that they hold are dropped. -/
def release (site : Site ρ σ) : Site ρ σ :=
  (List.range site.hosts.length).foldl
    (fun site k =>
      match site.hosts[k]? with
      | some h => if h.isOpen then site else site.remove k
      | none => site)
    site

/-- Reports what happened and starts over with the notes. -/
def report (site : Site ρ σ) (answers : List CallAnswer) : Report ρ σ × Site ρ σ :=
  let stopped := site.stopped
  let site := site.release
  let (ended, clients) := site.clients.collect
  (⟨answers, site.effects, ended, site.queries, stopped⟩,
    { site with clients, effects := [], queries := [] })

/-- Makes calls or lets time pass, runs the hosts until they are idle, and reports. No part of the
step takes more than `limit` turns. -/
def step (limit : Nat) (site : Site ρ σ) : SiteStep → Report ρ σ × Site ρ σ
  | .calls cs =>
    let (answers, site) := site.makeAll cs
    (run limit site).report answers
  | .advance time => (fireUntil limit (site.now + time.nanos) limit site).report []

/-- Starts hosts in order, each with a route to it, until one is refused. -/
def startHosts (members : List ReplicaId) (config : Config) (machine : σ) :
    List (ReplicaId × ρ) → Site ρ σ → Except Failure (Site ρ σ)
  | [], site => .ok site
  | (id, source) :: rest, site => do
    let h ← Host.start id members config source machine
    let site := { site with hosts := site.hosts ++ [h] }
    startHosts members config machine rest (site.register id (site.hosts.length - 1))

end Site

end PaxosLog
