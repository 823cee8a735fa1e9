import PaxosLog.Proofs.Wire.Records
import PaxosLog.Site

/-!
# What is sent is what arrives

A value that is written as a text is read back as itself. `LawfulWire` has the two halves of this
for a type: its texts are neat, so that the scanner finds the tokens that were written, and its
reader takes the value off them. Every type that goes over the wire is lawful, so `decode` undoes
`encode` (`decode_encode`), and a message that is sent to a replica reaches the inbox of its host
unchanged (`wire_faithful`).
-/

namespace PaxosLog

open Json Wire

/-- Values that are read back from the texts they are written as. -/
class LawfulWire (α : Type) [Wire α] : Prop where
  neat : ∀ a : α, Neat (tokens a)
  reads : ∀ a : α, Reads read (tokens a) a

section

variable {α : Type} [Wire α] [LawfulWire α]

/-- The text of a value is scanned into the tokens that it was written with. -/
theorem scan_encode (a : α) : scan (encode a) = tokens a :=
  scan_of_spells (spells_render (LawfulWire.neat a))

/-- A value is read back from its text. -/
theorem decode_encode (a : α) : decode (encode a) = .ok a := by
  have hread : read (tokens a) = .ok (a, []) := by
    simpa using LawfulWire.reads a []
  simp [decode, readAll, scan_encode, hread]

/-- Different values have different texts. -/
theorem encode_injective : Function.Injective (encode : α → Bytes) := fun a b h => by
  have hdecode : (.ok a : Except DecodeError α) = .ok b := by
    rw [← decode_encode a, h, decode_encode b]
  exact Except.ok.inj hdecode

-- a request for votes, as it goes over the wire
example : encode (Message.accept ⟨⟨1, none⟩, 2, .client [65]⟩) =
    ascii ("\x7b\"Accept\":\x7b\"ballot\":\x7b\"round\":1,\"owner\":null\x7d," ++
      "\"slot\":2,\"command\":\x7b\"Client\":[65]\x7d\x7d\x7d") := by
  decide

end

/-! ## The types of the wire format -/

instance : LawfulWire Ballot where
  neat b := neat_object ⟨neat_field (by decide) (neat_word b.round.toNat),
    neat_field (by decide) (neat_optionalWord b.owner)⟩
  reads b := reads_readRecord2 "Ballot" (by decide) (reads_readWord b.round)
    (reads_optionalWord b.owner)

instance : LawfulWire Command where
  neat
    | .noop => (neat_cons rfl).mpr ⟨isBody_ascii (by decide), neat_nil⟩
    | .client payload => neat_variant (by decide) (neat_bytes payload)
  reads
    | .noop => reads_bare (by decide) (.head _) rfl rfl
    | .client payload =>
      reads_variant (by decide) (.tail _ (.head _)) rfl ((reads_bytes payload).map Command.client)

instance : LawfulWire PromisedEntry where
  neat e := neat_object ⟨neat_field (by decide) (LawfulWire.neat e.command),
    neat_field (by decide) (LawfulWire.neat e.ballot),
    neat_field (by decide) (neat_boolean e.committed)⟩
  reads e := reads_readRecord3 "PromisedEntry" (by decide) (LawfulWire.reads e.command)
    (LawfulWire.reads e.ballot) (reads_readBoolean e.committed)

instance {α : Type} [Wire α] [LawfulWire α] : LawfulWire (SlotMap α) where
  neat := neat_log LawfulWire.neat
  reads := reads_log LawfulWire.reads

instance : LawfulWire Prepare where
  neat m := neat_object ⟨neat_field (by decide) (LawfulWire.neat m.ballot),
    neat_field (by decide) (neat_word m.start.toNat)⟩
  reads m := reads_readRecord2 "Prepare" (by decide) (LawfulWire.reads m.ballot)
    (reads_readWord m.start)

instance : LawfulWire Promise where
  neat m := neat_object ⟨neat_field (by decide) (LawfulWire.neat m.ballot),
    neat_field (by decide) (neat_word m.sender.toNat),
    neat_field (by decide) (LawfulWire.neat m.log)⟩
  reads m := reads_readRecord3 "Promise" (by decide) (LawfulWire.reads m.ballot)
    (reads_readWord m.sender) (LawfulWire.reads m.log)

instance : LawfulWire Accept where
  neat m := neat_object ⟨neat_field (by decide) (LawfulWire.neat m.ballot),
    neat_field (by decide) (neat_word m.slot.toNat),
    neat_field (by decide) (LawfulWire.neat m.command)⟩
  reads m := reads_readRecord3 "Accept" (by decide) (LawfulWire.reads m.ballot)
    (reads_readWord m.slot) (LawfulWire.reads m.command)

instance : LawfulWire Accepted where
  neat m := neat_object ⟨neat_field (by decide) (LawfulWire.neat m.ballot),
    neat_field (by decide) (neat_word m.slot.toNat),
    neat_field (by decide) (neat_word m.sender.toNat)⟩
  reads m := reads_readRecord3 "Accepted" (by decide) (LawfulWire.reads m.ballot)
    (reads_readWord m.slot) (reads_readWord m.sender)

instance : LawfulWire Commit where
  neat m := neat_object ⟨neat_field (by decide) (LawfulWire.neat m.ballot),
    neat_field (by decide) (neat_word m.slot.toNat),
    neat_field (by decide) (LawfulWire.neat m.command)⟩
  reads m := reads_readRecord3 "Commit" (by decide) (LawfulWire.reads m.ballot)
    (reads_readWord m.slot) (LawfulWire.reads m.command)

/-- A variant of a message is read back if its content is. -/
theorem reads_messageVariant {α : Type} [Wire α] [LawfulWire α] (key : String)
    (build : α → Message) (content : α) :
    Reads (messageVariant key build).read (tokens content) (build content) :=
  (LawfulWire.reads content).map build

instance : LawfulWire Message where
  neat
    | .prepare m => neat_variant (by decide) (LawfulWire.neat m)
    | .promise m => neat_variant (by decide) (LawfulWire.neat m)
    | .accept m => neat_variant (by decide) (LawfulWire.neat m)
    | .accepted m => neat_variant (by decide) (LawfulWire.neat m)
    | .commit m => neat_variant (by decide) (LawfulWire.neat m)
  reads
    | .prepare m => reads_variant (by decide) (.head _) rfl (reads_messageVariant _ .prepare m)
    | .promise m =>
      reads_variant (by decide) (.tail _ (.head _)) rfl (reads_messageVariant _ .promise m)
    | .accept m =>
      reads_variant (by decide) (.tail _ (.tail _ (.head _))) rfl (reads_messageVariant _ .accept m)
    | .accepted m =>
      reads_variant (by decide) (.tail _ (.tail _ (.tail _ (.head _)))) rfl
        (reads_messageVariant _ .accepted m)
    | .commit m =>
      reads_variant (by decide) (.tail _ (.tail _ (.tail _ (.tail _ (.head _))))) rfl
        (reads_messageVariant _ .commit m)

instance : LawfulWire CommandReply where
  neat r := neat_object ⟨neat_field (by decide) (neat_word r.slot.toNat),
    neat_field (by decide) (neat_bytes r.command), neat_field (by decide) (neat_bytes r.value)⟩
  reads r := reads_readRecord3 "CommandReply" (by decide) (reads_readWord r.slot)
    (reads_bytes r.command) (reads_bytes r.value)

instance : LawfulWire Config where
  neat c := neat_object ⟨neat_field (by decide) (neat_word c.backoffBound.toNat),
    neat_field (by decide) (neat_word c.backoffJitter.toNat),
    neat_field (by decide) (neat_optionalWord c.phase1Quorum),
    neat_field (by decide) (neat_optionalWord c.phase2Quorum)⟩
  reads c := reads_readLenient4 "ReplicaConfig" (by decide) (reads_readWord c.backoffBound)
    (reads_readWord c.backoffJitter) (reads_optionalWord c.phase1Quorum)
    (reads_optionalWord c.phase2Quorum)

/-! ## The wire -/

/-- A message that is sent is posted to the host that takes the messages of its receiver, as it is,
and lost only where there is no route. -/
theorem send_eq {ρ σ : Type} (site : Site ρ σ) (receiver : ReplicaId) (m : Message) :
    site.send receiver m =
      match site.route? receiver with
      | some k => (site.post k (.message m)).2
      | none => site := by
  rw [Site.send, decode_encode m]
  cases site.route? receiver <;> rfl

/-- Every message, ballot, command, reply and configuration is read back from its text, so that
different ones have different texts, and sending a message neither alters nor drops it. -/
theorem wire_faithful :
    (∀ m : Message, decode (encode m) = .ok m) ∧ (∀ b : Ballot, decode (encode b) = .ok b) ∧
      (∀ c : Command, decode (encode c) = .ok c) ∧
      (∀ r : CommandReply, decode (encode r) = .ok r) ∧
      (∀ c : Config, decode (encode c) = .ok c) ∧
    (∀ m n : Message, encode m = encode n → m = n) ∧ (∀ a b : Ballot, encode a = encode b → a = b) ∧
      (∀ c d : Command, encode c = encode d → c = d) ∧
      (∀ r s : CommandReply, encode r = encode s → r = s) ∧
      (∀ c d : Config, encode c = encode d → c = d) ∧
    ∀ {ρ σ : Type} (site : Site ρ σ) (receiver : ReplicaId) (m : Message),
      site.send receiver m =
        match site.route? receiver with
        | some k => (site.post k (.message m)).2
        | none => site :=
  ⟨decode_encode, decode_encode, decode_encode, decode_encode, decode_encode,
    fun _ _ h => encode_injective h, fun _ _ h => encode_injective h,
    fun _ _ h => encode_injective h, fun _ _ h => encode_injective h,
    fun _ _ h => encode_injective h, send_eq⟩

end PaxosLog
