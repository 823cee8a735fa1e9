import PaxosLog.Proofs.Wire
import PaxosLog.Proofs.Wire.Spelled

/-!
# Every spelling is read the same way

A message has one encoding and many other texts that say the same. `spelled m ts` goes through them:
at every depth, a record may be an object with its fields in any order and with fields of unknown
names, or the list of its fields; an owner that is null may be left out of an object; `"Noop"` may
be `{"Noop":null}`; and the keys of a log may come in any order, each behind other entries of
its own. Between the tokens there may be blanks (`Spaced`).

* `LawfulSpelled`: for each type, the encoding is one of the spellings, and the reader takes the
  value off all of them.
* **`spellings_decoded`**: every spelling of a message is decoded as the message.
-/

namespace PaxosLog

open Json Wire

/-! ## Blanks -/

/-- A text of tokens with any blanks before, between and behind them. -/
inductive Spaced : Bytes → List Token → Prop
  | nil {blanks : Bytes} (hb : ∀ b ∈ blanks, isBlank b) : Spaced blanks []
  | cons {blanks rest : Bytes} {t : Token} {ts : List Token} (hb : ∀ b ∈ blanks, isBlank b)
      (h : Spaced rest ts) : Spaced (blanks ++ (t.bytes ++ rest)) (t :: ts)

/-- The same blanks before every token. -/
theorem spaced_flatMap {blanks : Bytes} (hb : ∀ b ∈ blanks, isBlank b) (ts : List Token) :
    Spaced (ts.flatMap fun t => blanks ++ t.bytes) ts := by
  induction ts with
  | nil => exact .nil (by simp)
  | cons t ts ih =>
    rw [List.flatMap_cons, List.append_assoc]
    exact .cons hb ih

/-- No numeral goes on with a blank. -/
theorem ends_of_blank {b : UInt8} (hb : isBlank b) (rest : Bytes) : Numeral.Ends (b :: rest) := by
  simp only [isBlank, Bool.or_eq_true, decide_eq_true_eq] at hb
  rcases hb with ((rfl | rfl) | rfl) | rfl
  all_goals exact Numeral.ends_cons rfl (by decide) (by decide) (by decide)

/-- What follows a numeral does not go on with it, for no numeral follows it at once. -/
theorem Spaced.ends {text : Bytes} {t : Token} {ts : List Token} (h : Spaced text ts)
    (hneat : Neat (t :: ts)) (ht : t.isNumber) : Numeral.Ends text := by
  obtain ⟨hproper, hchain⟩ := hneat
  cases h with
  | nil hb =>
    cases text with
    | nil => exact Numeral.ends_nil
    | cons b bs => exact ends_of_blank (hb b (.head _)) bs
  | @cons blanks rest u us hb _ =>
    cases blanks with
    | nil =>
      have hfits : u.isNumber = false := (List.isChain_cons_cons.mp hchain).1 ht
      exact Token.ends_bytes (hproper u (by simp)) hfits rest
    | cons b bs => exact ends_of_blank (hb b (.head _)) _

theorem Spaced.spells {text : Bytes} {ts : List Token} (h : Spaced text ts) (hneat : Neat ts) :
    Spells text ts := by
  induction h with
  | nil hb => exact .nil hb
  | cons hb h ih =>
    have hrest : Neat _ := ⟨fun u hu => hneat.1 u (.tail _ hu), hneat.2.tail⟩
    exact .cons hb (hneat.1 _ (.head _)) (h.ends hneat) (ih hrest)

/-! ## Spellings -/

/-- Values with all their spellings, in tokens. -/
class Spelled (α : Type) where
  spelled : α → List Token → Prop

open Spelled

/-- Values whose encoding is one of their spellings, all of which are read as the value. -/
class LawfulSpelled (α : Type) [Wire α] [Spelled α] : Prop where
  canonical : ∀ a : α, spelled a (tokens a)
  legible : ∀ a : α, Legible read (spelled a) a

/-- A field that is always written in the same way. -/
def Wire.Part.fixed (key : String) (value : List Token) : Part := ⟨key, (· = value), False⟩

/-- A field with a value of its own type. -/
def Wire.Part.of {α : Type} [Spelled α] (key : String) (a : α) : Part :=
  ⟨key, Spelled.spelled a, False⟩

/-- The owner of a ballot, which an object may leave out if there is none. -/
def Wire.Part.owner (owner : Option ReplicaId) : Part :=
  ⟨"owner", (· = optionalWord owner), owner = none⟩

/-- A variant with content is spelled as an object with its name and its content. -/
def SpelledVariant (key : String) (spelled : List Token → Prop) (ts : List Token) : Prop :=
  ∃ content, spelled content ∧ ts = variant key content

instance : Spelled Ballot where
  spelled b := SpelledRecord [.fixed "round" (word b.round.toNat), .owner b.owner]

instance : Spelled Command where
  spelled
    | .noop => fun ts => ts = [name "Noop"] ∨ SpelledVariant "Noop" (· = [.null]) ts
    | .client payload => SpelledVariant "Client" (· = bytes payload)

instance : Spelled PromisedEntry where
  spelled e := SpelledRecord [.of "command" e.command, .of "ballot" e.ballot,
    .fixed "committed" [.boolean e.committed]]

instance {α : Type} [Spelled α] : Spelled (SlotMap α) where
  spelled := SpelledLog spelled

instance : Spelled Prepare where
  spelled m := SpelledRecord [.of "ballot" m.ballot, .fixed "from" (word m.start.toNat)]

instance : Spelled Promise where
  spelled m := SpelledRecord [.of "ballot" m.ballot, .fixed "sender" (word m.sender.toNat),
    .of "log" m.log]

instance : Spelled Accept where
  spelled m := SpelledRecord [.of "ballot" m.ballot, .fixed "slot" (word m.slot.toNat),
    .of "command" m.command]

instance : Spelled Accepted where
  spelled m := SpelledRecord [.of "ballot" m.ballot, .fixed "slot" (word m.slot.toNat),
    .fixed "sender" (word m.sender.toNat)]

instance : Spelled Commit where
  spelled m := SpelledRecord [.of "ballot" m.ballot, .fixed "slot" (word m.slot.toNat),
    .of "command" m.command]

instance : Spelled Message where
  spelled
    | .prepare m => SpelledVariant "Prepare" (spelled m)
    | .promise m => SpelledVariant "Promise" (spelled m)
    | .accept m => SpelledVariant "Accept" (spelled m)
    | .accepted m => SpelledVariant "Accepted" (spelled m)
    | .commit m => SpelledVariant "Commit" (spelled m)

/-! ## Fields and variants -/

section

variable {α : Type} {r : Reader α} {a : α}

theorem legible_fixed {ts : List Token} (hneat : Neat ts) (helement : IsElement ts)
    (hreads : Reads r ts a) : Legible r (· = ts) a where
  neat h := h ▸ hneat
  element h := h ▸ helement
  reads h := h ▸ hreads

theorem isElement_word (n : Nat) : IsElement (word n) := ⟨_, [], rfl, by simp, by simp⟩

theorem isElement_optionalWord (n : Option UInt64) : IsElement (optionalWord n) := by
  cases n with
  | none => exact ⟨_, [], rfl, by simp, by simp⟩
  | some n => exact isElement_word n.toNat

theorem suits_word (key : String) (n : UInt64) :
    Suits (required key readWord) (.fixed key (word n.toNat)) n where
  named := rfl
  legible := legible_fixed (neat_word _) (isElement_word _) (reads_readWord n)
  absent h := h.elim

theorem suits_boolean (key : String) (b : Bool) :
    Suits (required key readBoolean) (.fixed key [.boolean b]) b where
  named := rfl
  legible := legible_fixed (neat_boolean b) ⟨_, [], rfl, by simp, by simp⟩ (reads_readBoolean b)
  absent h := h.elim

theorem suits_owner (owner : Option ReplicaId) :
    Suits (optional "owner" readWord) (.owner owner) owner where
  named := rfl
  legible := legible_fixed (neat_optionalWord owner) (isElement_optionalWord owner)
    (reads_optionalWord owner)
  absent h := congrArg some (Eq.symm h)

theorem suits_part [Wire α] [Spelled α] [LawfulSpelled α] (key : String) (a : α) :
    Suits (required key read) (.of key a) a where
  named := rfl
  legible := LawfulSpelled.legible a
  absent h := h.elim

theorem legible_variant {variants : List (Variant α)} {v : Variant α} {key : String}
    {spelled : List Token → Prop} (hnames : AreNames (variants.map (·.name))) (hmem : v ∈ variants)
    (hkey : v.name = key) (hread : Legible v.read spelled a) :
    Legible (readVariant variants) (SpelledVariant key spelled) a where
  neat := by
    rintro _ ⟨content, hcontent, rfl⟩
    exact neat_variant (hnames.2 key (List.mem_map.mpr ⟨v, hmem, hkey⟩)) (hread.neat hcontent)
  element := by
    rintro _ ⟨content, -, rfl⟩
    exact isElement_object _
  reads := by
    rintro _ ⟨content, hcontent, rfl⟩
    exact reads_variant hnames hmem hkey (hread.reads hcontent)

theorem members_of_values (names : List String) {parts : List Part} {values : List (List Token)}
    (h : List.Forall₂ Part.spelled parts values) :
    Members names parts
      (List.zipWith (fun p value => member (name p.name) value) parts values) := by
  induction h with
  | nil => exact .nil (by simp)
  | @cons p value ps _ hvalue _ ih => exact @Members.field names [] ps p value _ hvalue ih

/-- An object of all the fields in their own order. -/
theorem spelledRecord_of_values {parts : List Part} {values : List (List Token)}
    (h : List.Forall₂ Part.spelled parts values) :
    SpelledRecord parts
      (object (List.zipWith (fun p value => member (name p.name) value) parts values)) :=
  .inl ⟨_, members_of_values _ h, rfl⟩

end

/-! ## The types of the wire format -/

open LawfulSpelled

instance : LawfulSpelled Ballot where
  canonical b := spelledRecord_of_values (.cons rfl (.cons rfl .nil))
  legible b := legible_readRecord2 _ (by decide) (suits_word _ b.round) (suits_owner b.owner)

instance : LawfulSpelled Command where
  canonical
    | .noop => .inl rfl
    | .client payload => ⟨bytes payload, rfl, rfl⟩
  legible
    | .noop => by
      have hbare : Legible (readVariant _) (· = [name "Noop"]) Command.noop :=
        legible_fixed (LawfulWire.neat Command.noop) ⟨_, [], rfl, by simp [name], by simp [name]⟩
          (LawfulWire.reads Command.noop)
      have hnull : Legible readUnit (· = [.null]) () :=
        legible_fixed ((neat_cons rfl).mpr ⟨trivial, neat_nil⟩) ⟨_, [], rfl, by simp, by simp⟩
          fun _ => rfl
      exact hbare.or (legible_variant (by decide) (.head _) rfl (hnull.map fun _ => Command.noop))
    | .client payload =>
      legible_variant (by decide) (.tail _ (.head _)) rfl
        ((legible_fixed (neat_bytes payload) (isElement_list _) (reads_bytes payload)).map
          Command.client)

instance : LawfulSpelled PromisedEntry where
  canonical e := spelledRecord_of_values (.cons (canonical e.command) (.cons (canonical e.ballot)
    (.cons rfl .nil)))
  legible e := legible_readRecord3 _ (by decide) (suits_part _ e.command) (suits_part _ e.ballot)
    (suits_boolean _ e.committed)

instance {α : Type} [Wire α] [Spelled α] [LawfulSpelled α] : LawfulSpelled (SlotMap α) where
  canonical m := by
    refine ⟨m.toList, _, .keys (.refl _), ?_, rfl⟩
    exact List.forall₂_map_right_iff.mpr <| List.forall₂_same.mpr fun p _ =>
      ⟨tokens p.2, canonical p.2, rfl⟩
  legible := legible_log legible

instance : LawfulSpelled Prepare where
  canonical m := spelledRecord_of_values (.cons (canonical m.ballot) (.cons rfl .nil))
  legible m := legible_readRecord2 _ (by decide) (suits_part _ m.ballot) (suits_word _ m.start)

instance : LawfulSpelled Promise where
  canonical m := spelledRecord_of_values (.cons (canonical m.ballot) (.cons rfl
    (.cons (canonical m.log) .nil)))
  legible m := legible_readRecord3 _ (by decide) (suits_part _ m.ballot) (suits_word _ m.sender)
    (suits_part _ m.log)

instance : LawfulSpelled Accept where
  canonical m := spelledRecord_of_values (.cons (canonical m.ballot) (.cons rfl
    (.cons (canonical m.command) .nil)))
  legible m := legible_readRecord3 _ (by decide) (suits_part _ m.ballot) (suits_word _ m.slot)
    (suits_part _ m.command)

instance : LawfulSpelled Accepted where
  canonical m := spelledRecord_of_values (.cons (canonical m.ballot) (.cons rfl (.cons rfl .nil)))
  legible m := legible_readRecord3 _ (by decide) (suits_part _ m.ballot) (suits_word _ m.slot)
    (suits_word _ m.sender)

instance : LawfulSpelled Commit where
  canonical m := spelledRecord_of_values (.cons (canonical m.ballot) (.cons rfl
    (.cons (canonical m.command) .nil)))
  legible m := legible_readRecord3 _ (by decide) (suits_part _ m.ballot) (suits_word _ m.slot)
    (suits_part _ m.command)

/-- A variant of a message is legible if its content is. -/
theorem legible_messageVariant {α : Type} [Wire α] [Spelled α] [LawfulSpelled α] (key : String)
    (build : α → Message) (content : α) :
    Legible (messageVariant key build).read (spelled content) (build content) :=
  (legible content).map build

instance : LawfulSpelled Message where
  canonical
    | .prepare m => ⟨_, canonical m, rfl⟩
    | .promise m => ⟨_, canonical m, rfl⟩
    | .accept m => ⟨_, canonical m, rfl⟩
    | .accepted m => ⟨_, canonical m, rfl⟩
    | .commit m => ⟨_, canonical m, rfl⟩
  legible
    | .prepare m => legible_variant (by decide) (.head _) rfl (legible_messageVariant _ .prepare m)
    | .promise m =>
      legible_variant (by decide) (.tail _ (.head _)) rfl (legible_messageVariant _ .promise m)
    | .accept m =>
      legible_variant (by decide) (.tail _ (.tail _ (.head _))) rfl
        (legible_messageVariant _ .accept m)
    | .accepted m =>
      legible_variant (by decide) (.tail _ (.tail _ (.tail _ (.head _)))) rfl
        (legible_messageVariant _ .accepted m)
    | .commit m =>
      legible_variant (by decide) (.tail _ (.tail _ (.tail _ (.tail _ (.head _))))) rfl
        (legible_messageVariant _ .commit m)

/-! ## Spellings of messages -/

/-- A text that spells a value. -/
def Spelling {α : Type} [Spelled α] (a : α) (text : Bytes) : Prop :=
  ∃ ts, spelled a ts ∧ Spaced text ts

section

variable {α : Type} [Wire α] [Spelled α] [LawfulSpelled α]

theorem spelling_encode (a : α) : Spelling a (encode a) :=
  ⟨tokens a, canonical a, @spaced_flatMap [] (by simp) (tokens a)⟩

theorem decode_spelling {a : α} {text : Bytes} (h : Spelling a text) : decode text = .ok a := by
  obtain ⟨ts, hspelled, hspaced⟩ := h
  have hlegible := legible a
  have hread : read ts = .ok (a, []) := by
    simpa using hlegible.reads hspelled []
  simp [decode, readAll, scan_of_spells (hspaced.spells (hlegible.neat hspelled)), hread]

end

/-- **Every spelling of a message is decoded as the message**, its encoding among them. -/
theorem spellings_decoded (m : Message) :
    Spelling m (encode m) ∧ ∀ text, Spelling m text → decode text = .ok m :=
  ⟨spelling_encode m, fun _ => decode_spelling⟩

/-- A promise with its fields in another order and an unknown one, a ballot without its owner, a
ballot and an entry as lists, the name of a command in an object, the keys of the log in descending
order and one of them twice, and a blank before every token. -/
theorem spellings_decoded_promise :
    decode ([" \x7b \"Promise\" : \x7b \"note\" : [ 1 , \x7b \"deep\" : null \x7d ] ,",
        " \"log\" : \x7b \"5\" : [ \"Noop\" , [ 0 , null ] , true ] ,",
        " \"5\" : \x7b \"ballot\" : \x7b \"round\" : 2 , \"owner\" : 4 \x7d ,",
        " \"committed\" : false , \"command\" : \x7b \"Client\" : [ 65 ] \x7d \x7d ,",
        " \"1\" : [ \x7b \"Noop\" : null \x7d , \x7b \"round\" : 1 \x7d , true ] \x7d ,",
        " \"sender\" : 2 , \"ballot\" : [ 3 , null ] \x7d \x7d"].flatMap ascii) =
      .ok (Message.promise ⟨⟨3, none⟩, 2, .ofPairs [(1, ⟨.noop, ⟨1, none⟩, true⟩),
        (5, ⟨.client [65], ⟨2, some 4⟩, false⟩)]⟩) := by
  let note := list [word 1, object [member (name "deep") [.null]]]
  have hnote : IsValue note := by
    refine .list (List.forall_mem_cons.mpr ⟨.number (Numeral.ofNat_wellFormed 1), ?_⟩)
    exact List.forall_mem_singleton.mpr <| @IsValue.object [(ascii "deep", [.null])]
      (List.forall_mem_singleton.mpr (isBody_ascii (by decide)))
      (List.forall_mem_singleton.mpr .null)
  let early := list [[name "Noop"], list [word 0, [.null]], [.boolean true]]
  have hearly : spelled (PromisedEntry.mk .noop ⟨0, none⟩ true) early :=
    .inr ⟨_, .cons (.inl rfl) (.cons (.inr ⟨_, .cons rfl (.cons rfl .nil), rfl⟩)
      (.cons rfl .nil)), rfl⟩
  let late := object [field "ballot" (Ballot.mk 2 (some 4)),
    member (name "committed") [.boolean false], field "command" (Command.client [65])]
  have hlate : spelled (PromisedEntry.mk (.client [65]) ⟨2, some 4⟩ false) late :=
    .inl ⟨_, @Members.field _ [_] [_] _ _ _ (canonical (Ballot.mk 2 (some 4))) <|
      @Members.field _ [_] [] _ _ _ rfl <|
      @Members.field _ [] [] _ _ _ (canonical (Command.client [65])) <| .nil (by simp), rfl⟩
  let chosen := list [variant "Noop" [.null], object [member (name "round") (word 1)],
    [.boolean true]]
  have hchosen : spelled (PromisedEntry.mk .noop ⟨1, none⟩ true) chosen :=
    .inr ⟨_, .cons (.inr ⟨_, rfl, rfl⟩) (.cons (.inl ⟨_, @Members.field _ [] [_] _ _ _ rfl <|
      .nil (List.forall_mem_singleton.mpr rfl), rfl⟩) (.cons rfl .nil)), rfl⟩
  let log := object [member (slotKey 5) early, member (slotKey 5) late, member (slotKey 1) chosen]
  have hlog : spelled (SlotMap.ofPairs [(1, PromisedEntry.mk .noop ⟨1, none⟩ true),
      (5, ⟨.client [65], ⟨2, some 4⟩, false⟩)]) log := by
    exact ⟨_, _, @Arranged.earlier _ _ [] _ 5 _ (by decide) (.keys (.swap _ _ _)),
      .cons ⟨_, hearly, rfl⟩ (.cons ⟨_, hlate, rfl⟩ (.cons ⟨_, hchosen, rfl⟩ .nil)), rfl⟩
  let promise := object [member (name "note") note, member (name "log") log,
    member (name "sender") (word 2), member (name "ballot") (list [word 3, [.null]])]
  have hpromise : Spelling (Message.promise ⟨⟨3, none⟩, 2, .ofPairs
      [(1, ⟨.noop, ⟨1, none⟩, true⟩), (5, ⟨.client [65], ⟨2, some 4⟩, false⟩)]⟩)
      ((variant "Promise" promise).flatMap fun t => [0x20] ++ t.bytes) := by
    refine ⟨_, ⟨promise, .inl ⟨_, ?_, rfl⟩, rfl⟩,
      spaced_flatMap (List.forall_mem_singleton.mpr rfl) _⟩
    refine .unknown (isBody_ascii (by decide)) rfl (by decide) hnote ?_
    exact @Members.field _ [_, _] [] _ _ _ hlog <| @Members.field _ [_] [] _ _ _ rfl <|
      @Members.field _ [] [] _ _ _ (.inr ⟨_, .cons rfl (.cons rfl .nil), rfl⟩) <| .nil (by simp)
  refine (congrArg decode ?_).trans ((spellings_decoded _).2 _ hpromise)
  decide +kernel

end PaxosLog
