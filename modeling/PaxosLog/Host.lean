import PaxosLog.Replica.Step

/-!
# Hosts

A host runs one replica of a cluster whose members it knows. Whatever is meant for the replica
waits in the host's inbox, and is handled one event at a time, in the order in which it came. A
shutdown is an event like others: what came before it is handled, what came after it is not.

Model of the driver of a replica (§5 of the specification), with the receiving end of its inbox:
* `Host.start` is `new`: the members are sorted and each taken once (`Host.normalize`), a replica
  that is not among them is refused, and so are quorums that do not fit their number.
* `Event` has the cases of an event of the driver. A question for the status carries a number in the
  place of the channel for its answer.
* `HostState` is how far `run` is: in its loop, returned with its replica, or dropped with it.
* `Host.peers` is whom `broadcast` sends to.

What a host does with its events is in the module on sites, since it reaches other hosts.
-/

namespace PaxosLog

/-- Something that waits for a replica. -/
inductive Event where
  /-- A message of a replica. -/
  | message (m : Message)
  /-- A request of a client, new or handed back by the replica. -/
  | request (r : ClientRequest)
  /-- The delay before another election has passed. -/
  | backoffElapsed
  /-- Question number `query` for the status of the replica. -/
  | status (query : Nat)
  /-- The host is to stop. -/
  | shutdown
deriving DecidableEq

/-- The requests that an event holds. -/
def Event.requests : Event → List ClientRequest
  | .request r => [r]
  | _ => []

/-- What a host is doing. -/
inductive HostState (ρ σ : Type) where
  /-- It handles the events of its inbox, the first one next. -/
  | running (replica : Replica ρ σ) (inbox : List Event)
  /-- It was killed and is gone when its turn comes. Until then its inbox takes events, but none of
  them is handled. -/
  | killed (replica : Replica ρ σ) (inbox : List Event)
  /-- It stopped after a shutdown and handed its replica to its owner, who still has it. -/
  | returned (replica : Replica ρ σ)
  /-- It is gone, and its replica with it. -/
  | gone

/-- A replica of a cluster, with its inbox. -/
structure Host (ρ σ : Type) where
  id : ReplicaId
  /-- The members of the cluster, in ascending order, each once. -/
  members : List ReplicaId
  state : HostState ρ σ

namespace Host

variable {ρ σ : Type}

/-- The distinct members of a list, in ascending order. -/
def normalize (members : List ReplicaId) : List ReplicaId :=
  (members.mergeSort (· ≤ ·)).eraseDups

/-- A host for replica `id` of a cluster. The replica must be a member, and the configured quorums
must fit the number of members. -/
def start (id : ReplicaId) (members : List ReplicaId) (config : Config) (source : ρ)
    (machine : σ) : Except Failure (Host ρ σ) :=
  let members := normalize members
  if id ∈ members then
    (Replica.start id members.length config source machine).map fun replica =>
      ⟨id, members, .running replica []⟩
  else .error (.refused (.invalidConfig (.notAMember id)))

/-- The other members, in ascending order. -/
def peers (h : Host ρ σ) : List ReplicaId := h.members.filter (· ≠ h.id)

/-- The host was neither shut down nor killed. -/
def isRunning (h : Host ρ σ) : Bool :=
  match h.state with
  | .running .. => true
  | _ => false

/-- The host still takes events. -/
def isOpen (h : Host ρ σ) : Bool :=
  match h.state with
  | .running .. => true
  | .killed .. => true
  | _ => false

/-- The events that wait. -/
def inbox (h : Host ρ σ) : List Event :=
  match h.state with
  | .running _ inbox => inbox
  | .killed _ inbox => inbox
  | _ => []

/-- An event comes in behind the others. A host that stopped does not take it. -/
def post (h : Host ρ σ) (e : Event) : Host ρ σ :=
  match h.state with
  | .running replica inbox => { h with state := .running replica (inbox ++ [e]) }
  | .killed replica inbox => { h with state := .killed replica (inbox ++ [e]) }
  | _ => h

/-- The host is killed, if it is running. -/
def kill (h : Host ρ σ) : Host ρ σ :=
  match h.state with
  | .running replica inbox => { h with state := .killed replica inbox }
  | _ => h

/-- The requests that the host holds, in its inbox or its replica. -/
def requests (h : Host ρ σ) : List ClientRequest :=
  match h.state with
  | .running replica inbox => replica.requests ++ inbox.flatMap Event.requests
  | .killed replica inbox => replica.requests ++ inbox.flatMap Event.requests
  | .returned replica => replica.requests
  | .gone => []

end Host

end PaxosLog
