import PaxosLog.Duration
import PaxosLog.Message
import PaxosLog.Quorum
import PaxosLog.Request

/-!
# Log entries

An entry says what a replica knows about a slot: a vote for a command under a ballot, which a
higher ballot may replace, or a chosen command, which stays. The replica that proposed the command
for a client keeps the client's request in the entry and counts votes there.

| here | operation of an entry |
|---|---|
| `vote`, `chosen` | `accepted`, `committed` |
| `proposal` | `proposal`, and the vote of the proposer, which always follows it |
| `isCommitted` | `is_committed` |
| `overwrite` | `overwrite`: the acknowledgements stay as they are |
| `repropose` | `repropose`, and the vote of the proposer, which always follows it |
| `ack` | `ack` of the entry's `acks_mut` |
| `commit`, `withoutRequest` | `commit`, `take_request` |

`reported` and `promised` go between an entry and what a promise says about it.
-/

namespace PaxosLog

/-- Whether the command of an entry is chosen. -/
inductive EntryStatus where
  /-- A vote, which a higher ballot may replace. -/
  | accepted
  /-- Chosen; ballot and command stay as they are. -/
  | committed
deriving DecidableEq, Repr

/-- What a replica knows about a slot. -/
structure LogEntry where
  /-- The ballot under which the command was last proposed. -/
  ballot : Ballot
  command : Command
  status : EntryStatus
  /-- The request for which this replica proposed the command. -/
  request : Option ClientRequest
  /-- The votes counted under `ballot`. -/
  acks : Quorum
  /-- When this replica last proposed the command, if it did. -/
  proposedAt : Option Duration
deriving DecidableEq

namespace LogEntry

/-- A vote learned from a peer. -/
def vote (ballot : Ballot) (command : Command) : LogEntry :=
  ⟨ballot, command, .accepted, none, .empty, none⟩

/-- A chosen command learned from a peer. -/
def chosen (ballot : Ballot) (command : Command) : LogEntry :=
  ⟨ballot, command, .committed, none, .empty, none⟩

/-- A command that this replica proposes at time `now`, with its own vote already counted. -/
def proposal (ballot : Ballot) (command : Command) (request : Option ClientRequest)
    (self : ReplicaId) (now : Duration) : LogEntry :=
  ⟨ballot, command, .accepted, request, Quorum.empty.ack self, some now⟩

/-- What a promise reports, as an entry. -/
def reported (r : PromisedEntry) : LogEntry :=
  if r.committed then chosen r.ballot r.command else vote r.ballot r.command

/-- The command is chosen. -/
def isCommitted (e : LogEntry) : Bool := e.status = .committed

/-- The entry as a promise reports it. -/
def promised (e : LogEntry) : PromisedEntry := ⟨e.command, e.ballot, e.isCommitted⟩

/-- Replaces ballot and command of a vote. If the command changes, the request that the entry
owned lost its slot and is handed out. -/
def overwrite (e : LogEntry) (ballot : Ballot) (command : Command) :
    Except Fault (LogEntry × Option ClientRequest) :=
  if e.isCommitted then .error .entryFrozen
  else if e.command = command then .ok ({ e with ballot }, none)
  else .ok ({ e with ballot, command, request := none }, e.request)

/-- Starts the vote over under `ballot`, with the own vote counted. -/
def repropose (e : LogEntry) (ballot : Ballot) (self : ReplicaId) (now : Duration) :
    Except Fault LogEntry :=
  if e.isCommitted then .error .entryFrozen
  else .ok { e with ballot, acks := Quorum.empty.ack self, proposedAt := some now }

/-- Counts the vote of `id`. -/
def ack (e : LogEntry) (id : ReplicaId) : LogEntry := { e with acks := e.acks.ack id }

/-- The command is chosen from now on. -/
def commit (e : LogEntry) : LogEntry := { e with status := .committed }

/-- The entry without its request. -/
def withoutRequest (e : LogEntry) : LogEntry := { e with request := none }

end LogEntry

end PaxosLog
