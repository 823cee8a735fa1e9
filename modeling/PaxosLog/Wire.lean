import PaxosLog.Config
import PaxosLog.Json.Record
import PaxosLog.Message
import PaxosLog.Request
import PaxosLog.Replica

/-!
# Wire format

Messages, and the values they are made of, as JSON texts. `Wire.tokens` says how a value is
written, without blanks and with the fields in their order, and `Wire.read` takes every JSON text
of the same shape. `encode` and `decode` go between values and bytes.

A command is `"Noop"` or an object with the bytes as numbers, an owner that is not set is null, and
the log of a promise is an object whose keys are the slots in ascending order.

* `encode` and `decode` are the operations of the JSON codec. Encoding has no error, since every
  value of these types has a text.
* The instance for configurations holds `from_json`: what a text does not set is as in
  `Config.standard`.
* `statusTokens` is how a snapshot of a replica is written. Nobody reads one.

Out of scope: other codecs, and texts that arrive in pieces.
-/

namespace PaxosLog

open Json

/-- Values that have a JSON text. -/
class Wire (α : Type) where
  /-- The text of a value, in tokens. -/
  tokens : α → List Token
  /-- Takes a value off the tokens of a text. -/
  read : Reader α

/-- The text of a value. -/
def encode {α : Type} [Wire α] (a : α) : Bytes := render (Wire.tokens a)

/-- The value of a text. -/
def decode {α : Type} [Wire α] (text : Bytes) : Except DecodeError α := readAll Wire.read text

namespace Wire

/-! ## Parts of texts -/

/-- A name or another text that needs no escapes. -/
def name (text : String) : Token := .string (ascii text)

/-- A whole number. -/
def word (n : Nat) : List Token := [.number (.ofNat n)]

/-- Parts with commas between them. -/
def separated : List (List Token) → List Token
  | [] => []
  | [p] => p
  | p :: ps => p ++ .comma :: separated ps

/-- The members of an object. -/
def member (key : Token) (value : List Token) : List Token := key :: .colon :: value

/-- An object with these members. -/
def object (members : List (List Token)) : List Token :=
  .leftBrace :: separated members ++ [.rightBrace]

/-- A list of these elements. -/
def list (elements : List (List Token)) : List Token :=
  .leftBracket :: separated elements ++ [.rightBracket]

/-- Bytes as a list of numbers. -/
def bytes (bs : Bytes) : List Token := list (bs.map fun b => word b.toNat)

/-- A field that holds a value of its own type. -/
def field {α : Type} [Wire α] (key : String) (a : α) : List Token := member (name key) (tokens a)

/-- A variant with content. -/
def variant (key : String) (content : List Token) : List Token :=
  object [member (name key) content]

/-! ## Simple values -/

/-- A field that must be there. -/
def required {α : Type} (key : String) (read : Reader α) : RecordField α := ⟨key, read, none⟩

/-- A field that stands for nothing if it is missing. -/
def optional {α : Type} (key : String) (read : Reader α) : RecordField (Option α) :=
  ⟨key, readOption read, some none⟩

/-- A number that may be missing. -/
def optionalWord : Option UInt64 → List Token
  | none => [.null]
  | some n => word n.toNat

instance : Wire Ballot where
  tokens b := object [member (name "round") (word b.round.toNat),
    member (name "owner") (optionalWord b.owner)]
  read := readRecord2 "Ballot" (required "round" readWord) (optional "owner" readWord) Ballot.mk

instance : Wire Command where
  tokens
    | .noop => [name "Noop"]
    | .client payload => variant "Client" (bytes payload)
  read := readVariant
    [⟨"Noop", fun ts => (readUnit ts).map fun ((), rest) => (.noop, rest), some .noop⟩,
      ⟨"Client", fun ts => (readList readByte ts).map fun (bs, rest) => (.client bs, rest), none⟩]

instance : Wire PromisedEntry where
  tokens e := object [field "command" e.command, field "ballot" e.ballot,
    member (name "committed") [.boolean e.committed]]
  read := readRecord3 "PromisedEntry" (required "command" read) (required "ballot" read)
    (required "committed" readBoolean) PromisedEntry.mk

/-! ## Logs -/

/-- The key of a slot. -/
def slotKey (s : Slot) : Token := .string (Decimal.bytes s.toNat)

/-- Reads at most `count` entries of a log, and its closing brace. Of entries with the same key the
last one counts. -/
def readEntries {α : Type} (r : Reader α) (first : Bool) (m : SlotMap α) :
    (count : Nat) → Reader (SlotMap α)
  | 0, _ => .error .malformed
  | count + 1, ts => do
    match ← nextKey first ts with
    | (none, ts) => return (m, ts)
    | (some key, ts) =>
      let s ← keyWord key
      let ((), ts) ← readColon ts
      let (a, ts) ← r ts
      readEntries r false (m.insert s a) count ts

instance {α : Type} [Wire α] : Wire (SlotMap α) where
  tokens m := object (m.toList.map fun (s, a) => member (slotKey s) (tokens a))
  read
    | .leftBrace :: rest => readEntries read true ∅ (rest.length + 1) rest
    | ts => .error (mismatch .map ts)

/-! ## Messages -/

instance : Wire Prepare where
  tokens m := object [field "ballot" m.ballot, member (name "from") (word m.start.toNat)]
  read := readRecord2 "Prepare" (required "ballot" read) (required "from" readWord) Prepare.mk

instance : Wire Promise where
  tokens m := object [field "ballot" m.ballot, member (name "sender") (word m.sender.toNat),
    field "log" m.log]
  read := readRecord3 "Promise" (required "ballot" read) (required "sender" readWord)
    (required "log" read) Promise.mk

instance : Wire Accept where
  tokens m := object [field "ballot" m.ballot, member (name "slot") (word m.slot.toNat),
    field "command" m.command]
  read := readRecord3 "Accept" (required "ballot" read) (required "slot" readWord)
    (required "command" read) Accept.mk

instance : Wire Accepted where
  tokens m := object [field "ballot" m.ballot, member (name "slot") (word m.slot.toNat),
    member (name "sender") (word m.sender.toNat)]
  read := readRecord3 "Accepted" (required "ballot" read) (required "slot" readWord)
    (required "sender" readWord) Accepted.mk

instance : Wire Commit where
  tokens m := object [field "ballot" m.ballot, member (name "slot") (word m.slot.toNat),
    field "command" m.command]
  read := readRecord3 "Commit" (required "ballot" read) (required "slot" readWord)
    (required "command" read) Commit.mk

/-- The variant of a message whose content is of type `α`. -/
def messageVariant {α : Type} [Wire α] (key : String) (build : α → Message) : Variant Message :=
  ⟨key, fun ts => (Wire.read ts).map fun (a, rest) => (build a, rest), none⟩

instance : Wire Message where
  tokens
    | .prepare m => variant "Prepare" (tokens m)
    | .promise m => variant "Promise" (tokens m)
    | .accept m => variant "Accept" (tokens m)
    | .accepted m => variant "Accepted" (tokens m)
    | .commit m => variant "Commit" (tokens m)
  read := readVariant
    [messageVariant "Prepare" Message.prepare, messageVariant "Promise" Message.promise,
      messageVariant "Accept" Message.accept, messageVariant "Accepted" Message.accepted,
      messageVariant "Commit" Message.commit]

/-! ## Replies, configurations, snapshots -/

instance : Wire CommandReply where
  tokens r := object [member (name "slot") (word r.slot.toNat),
    member (name "command") (bytes r.command), member (name "value") (bytes r.value)]
  read := readRecord3 "CommandReply" (required "slot" readWord)
    (required "command" (readList readByte)) (required "value" (readList readByte))
    CommandReply.mk

/-- A configuration may leave out every field. -/
instance : Wire Config where
  tokens c := object [member (name "backoff_bound_ms") (word c.backoffBound.toNat),
    member (name "backoff_jitter_ms") (word c.backoffJitter.toNat),
    member (name Phase.promise.quorumField) (optionalWord c.phase1Quorum),
    member (name Phase.vote.quorumField) (optionalWord c.phase2Quorum)]
  read := readLenient4 "ReplicaConfig"
    ⟨"backoff_bound_ms", readWord, some Config.standard.backoffBound⟩
    ⟨"backoff_jitter_ms", readWord, some Config.standard.backoffJitter⟩
    ⟨Phase.promise.quorumField, readOption readSize, some Config.standard.phase1Quorum⟩
    ⟨Phase.vote.quorumField, readOption readSize, some Config.standard.phase2Quorum⟩
    Config.mk

/-- The text of a snapshot. -/
def statusTokens (s : Status) : List Token :=
  object [member (name "id") (word s.id.toNat), field "ballot" s.ballot,
    member (name "leader") [.boolean s.leader],
    member (name "execute_cursor") (word s.executeCursor.toNat),
    member (name "highest_slot") (word s.highestSlot.toNat),
    member (name "pending") (word s.pending),
    member (name "backoff_in_flight") [.boolean s.backoffInFlight]]

end Wire

end PaxosLog
