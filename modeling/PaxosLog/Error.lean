import PaxosLog.Ballot

/-!
# Errors

What a caller is told when a configuration cannot be used, a text cannot be read, or a driver is
gone (§7 of the specification). Protocol steps have no errors: what is late or repeated is dropped.
`Error.message` holds the wording of all of them.

* `Error` has the cases of the error that callers get, and `Error.message` is how it is displayed.
  An invalid configuration is given by what is wrong with it; `ConfigError.message` is the text.
* `CodecError.message` and `CodecError.toError` are how a codec error is displayed, and how it turns
  into an error that callers get.
* `Failure` is how the making of thresholds, replicas and hosts can end: in an error, or in a fault.
-/

namespace PaxosLog

/-- The two phases of the protocol, each with a quorum of its own. -/
inductive Phase where
  /-- Promises for an election. -/
  | promise
  /-- Votes for a slot. -/
  | vote
deriving DecidableEq, Repr

/-- The configuration field that sets the quorum of a phase. -/
def Phase.quorumField : Phase → String
  | .promise => "phase1_quorum"
  | .vote => "phase2_quorum"

/-- What is wrong with a configuration. -/
inductive ConfigError where
  /-- The cluster is empty. -/
  | noReplicas
  /-- A quorum is empty or larger than the cluster. -/
  | quorumOutOfRange (phase : Phase) (clusterSize size : Nat)
  /-- The replica to be started does not belong to the cluster. -/
  | notAMember (id : ReplicaId)
  /-- A reason given in words. -/
  | stated (reason : String)
deriving DecidableEq, Repr

/-- The wording of a configuration error. -/
def ConfigError.message : ConfigError → String
  | .noReplicas => "cluster must have at least one replica"
  | .quorumOutOfRange phase n size =>
    phase.quorumField ++ " must be in 1..=" ++ toString n ++ ", got " ++ toString size
  | .notAMember id => id.text ++ " is not a member of the cluster"
  | .stated reason => reason

/-- A message that could not be put on the wire or read from it. -/
inductive CodecError where
  | encode (reason : String)
  | decode (reason : String)
deriving DecidableEq, Repr

/-- The wording of a codec error. -/
def CodecError.message : CodecError → String
  | .encode reason => "encode error: " ++ reason
  | .decode reason => "decode error: " ++ reason

/-- What the library reports to its callers. -/
inductive Error where
  /-- The configuration cannot be used. -/
  | invalidConfig (cause : ConfigError)
  /-- The quorums of the two phases could miss each other. -/
  | quorumOverlap (phase1 phase2 clusterSize : Nat)
  /-- A message could not be encoded or decoded. -/
  | codec (reason : String)
  /-- The driver has stopped. -/
  | shutdown
  /-- The request was given up before it was executed. -/
  | replyDropped
deriving DecidableEq, Repr

/-- A codec error as reported to callers. -/
def CodecError.toError (e : CodecError) : Error := .codec e.message

/-- The wording of an error. -/
def Error.message : Error → String
  | .invalidConfig cause => "invalid configuration: " ++ cause.message
  | .quorumOverlap phase1 phase2 n =>
    "quorums do not intersect: q1=" ++ toString phase1 ++ " + q2=" ++ toString phase2 ++
      " <= n=" ++ toString n
  | .codec reason => "codec error: " ++ reason
  | .shutdown => "replica driver shut down"
  | .replyDropped => "reply dropped before execution"

/-- Why something could not be set up: it was refused, or setting it up faulted. -/
inductive Failure where
  | refused (e : Error)
  | faulted (f : Fault)
deriving DecidableEq, Repr

end PaxosLog
