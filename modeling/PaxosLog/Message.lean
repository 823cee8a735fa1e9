import PaxosLog.Ballot
import PaxosLog.Slot
import PaxosLog.Command

/-!
# Messages between replicas

A candidate asks for promises (`Prepare`) and is told what the others know (`Promise`). A leader
asks for votes (`Accept`), is told who voted (`Accepted`), and announces what was chosen
(`Commit`). The answers carry the ballot of the replica that answers, from which a proposer learns
that it was superseded.

These are the messages of §6 of the specification, with their fields in the same order;
`Message.ballot` and `Message.kind` are `ballot` and `kind`. The field `Prepare.start` is called
`from` there.
-/

namespace PaxosLog

/-- A candidate asks for promises. -/
structure Prepare where
  /-- The candidate's new ballot. -/
  ballot : Ballot
  /-- The first slot that the candidate has not executed. -/
  start : Slot
deriving DecidableEq

/-- What a replica knows about one slot. -/
structure PromisedEntry where
  command : Command
  /-- The ballot under which the command was voted for. -/
  ballot : Ballot
  /-- Whether the command is known to be chosen. -/
  committed : Bool
deriving DecidableEq, Repr

/-- The answer to `Prepare`. -/
structure Promise where
  /-- The ballot of the replica that answers. -/
  ballot : Ballot
  sender : ReplicaId
  /-- What the sender knows from the asked slot on. -/
  log : SlotMap PromisedEntry
deriving DecidableEq

/-- A leader asks for votes. -/
structure Accept where
  ballot : Ballot
  slot : Slot
  command : Command
deriving DecidableEq

/-- The answer to `Accept`. -/
structure Accepted where
  /-- The ballot of the replica that answers. -/
  ballot : Ballot
  slot : Slot
  sender : ReplicaId
deriving DecidableEq

/-- The announcement of a chosen value. -/
structure Commit where
  /-- The ballot under which the value was chosen. -/
  ballot : Ballot
  slot : Slot
  command : Command
deriving DecidableEq

/-- What replicas send to each other. -/
inductive Message where
  | prepare (m : Prepare)
  | promise (m : Promise)
  | accept (m : Accept)
  | accepted (m : Accepted)
  | commit (m : Commit)
deriving DecidableEq

namespace Message

/-- The ballot that a message carries. -/
def ballot : Message → Ballot
  | .prepare m => m.ballot
  | .promise m => m.ballot
  | .accept m => m.ballot
  | .accepted m => m.ballot
  | .commit m => m.ballot

/-- The name of the kind of a message. -/
def kind : Message → String
  | .prepare _ => "prepare"
  | .promise _ => "promise"
  | .accept _ => "accept"
  | .accepted _ => "accepted"
  | .commit _ => "commit"

end Message

end PaxosLog
