import PaxosLog.Proofs.Log.Requests
import PaxosLog.Proofs.Wire
import PaxosLog.Proofs.Wire.Exact

/-!
# One key in a promise

The slots of a promised log are the keys of an object, and so numerals inside strings. No other
string of a promise starts with a digit (`NoKeys`), so a token that is written like the key of a
slot is one (`split_promise`), and writing another numeral there exchanges the slot of one entry
(`reads_rekeyed`) or is a mistake (`fails_rekeyed`).

* `ofPairs_rekeyed`: the log with one slot exchanged, as long as there is no entry at the new one.
-/

namespace PaxosLog.Wire

open Json

/-! ## Keys and names -/

theorem bytes_injective {m n : Nat} (h : Decimal.bytes m = Decimal.bytes n) : m = n := by
  have hscan := fun n => Numeral.scan?_bytes (Numeral.ofNat_wellFormed n) Numeral.ends_nil
  simp only [Numeral.bytes_ofNat, List.append_nil] at hscan
  have hm := hscan m
  rw [h, hscan n] at hm
  have hdigits : Decimal.digits n = Decimal.digits m := by simpa [Numeral.ofNat] using hm
  rw [← Decimal.value_digits m, ← hdigits, Decimal.value_digits]

theorem slotKey_injective {s t : Slot} (h : slotKey s = slotKey t) : s = t :=
  UInt64.toNat_inj.mp (bytes_injective (Token.string.inj h))

/-- The key of a slot starts with a digit, and no name does. -/
theorem slotKey_ne_name {text : String} (h : (ascii text).head?.bind Numeral.digit? = none)
    (s : Slot) : slotKey s ≠ name text := by
  intro heq
  obtain ⟨hwhole, -⟩ := (Numeral.wellFormed_iff _).mp (Numeral.ofNat_wellFormed s.toNat)
  obtain ⟨d, ds, hd⟩ := List.exists_cons_of_ne_nil hwhole
  have hbytes : Decimal.bytes s.toNat = ascii text := Token.string.inj heq
  have hdigits : Decimal.digits s.toNat = d :: ds := hd
  simp [← hbytes, Decimal.bytes, hdigits] at h

/-- No token is written like the key of a slot. -/
def NoKeys (ts : List Token) : Prop := ∀ s : Slot, slotKey s ∉ ts

theorem noKeys_object {members : List (List Token)} (h : members.Forall NoKeys) :
    NoKeys (object members) := by
  intro s hs
  obtain ⟨before, after, heq⟩ := List.append_of_mem hs
  obtain ⟨pre, b, a, post, -, rfl, -⟩ :=
    split_enclosed (by simp [slotKey]) (by simp [slotKey]) (by simp [slotKey]) heq
  exact List.forall_iff_forall_mem.mp h (b ++ slotKey s :: a) (by simp) s (by simp)

theorem noKeys_field {text : String} {value : List Token}
    (htext : (ascii text).head?.bind Numeral.digit? = none) (hvalue : NoKeys value) :
    NoKeys (member (name text) value) := by
  intro s hs
  obtain hname | hs := List.mem_cons.mp hs
  · exact slotKey_ne_name htext s hname
  · exact hvalue s (List.mem_of_ne_of_mem (by simp [slotKey]) hs)

theorem noKeys_word (n : Nat) : NoKeys (word n) := fun s hs => by simp [word, slotKey] at hs

theorem noKeys_optionalWord (n : Option UInt64) : NoKeys (optionalWord n) := fun s hs => by
  cases n <;> simp [optionalWord, word, slotKey] at hs

theorem noKeys_bytes (bs : Bytes) : NoKeys (bytes bs) := by
  intro s hs
  obtain ⟨before, after, heq⟩ := List.append_of_mem hs
  have hlist : .leftBracket :: separated (bs.map fun b => word b.toNat) ++ [.rightBracket] =
      before ++ slotKey s :: after := heq
  obtain ⟨pre, b, a, post, -, hitems, -⟩ :=
    split_enclosed (by simp [slotKey]) (by simp [slotKey]) (by simp [slotKey]) hlist
  obtain ⟨x, -, hx⟩ := List.mem_map.mp (hitems ▸ List.mem_append_right pre (.head post))
  exact noKeys_word x.toNat s (by simp [hx])

theorem noKeys_boolean (b : Bool) : NoKeys [.boolean b] := fun s hs => by simp [slotKey] at hs

theorem noKeys_ballot (b : Ballot) : NoKeys (tokens b) :=
  noKeys_object ⟨noKeys_field (by decide) (noKeys_word _),
    noKeys_field (by decide) (noKeys_optionalWord _)⟩

theorem noKeys_command (c : Command) : NoKeys (tokens c) := by
  cases c with
  | noop => exact fun s hs => slotKey_ne_name (by decide) s (List.mem_singleton.mp hs)
  | client payload => exact noKeys_object (noKeys_field (by decide) (noKeys_bytes payload))

theorem noKeys_entry (e : PromisedEntry) : NoKeys (tokens e) :=
  noKeys_object ⟨noKeys_field (by decide) (noKeys_command _),
    noKeys_field (by decide) (noKeys_ballot _), noKeys_field (by decide) (noKeys_boolean _)⟩

/-! ## A promise with another key -/

/-- The text of a promise, with these tokens as the key of the entry between `pre` and `post`. -/
def rekeyed (m : Promise) (pre : List (Slot × PromisedEntry)) (e : PromisedEntry)
    (post : List (Slot × PromisedEntry)) (key : Token) : List Token :=
  let entry (p : Slot × PromisedEntry) : List Token := member (slotKey p.1) (tokens p.2)
  variant "Promise" (object [field "ballot" m.ballot, member (name "sender") (word m.sender.toNat),
    member (name "log") (object (pre.map entry ++ member key (tokens e) :: post.map entry))])

/-- The key of an entry, in the text of a log. -/
theorem split_log {m : SlotMap PromisedEntry} {before after : List Token} {s : Slot}
    (h : tokens m = before ++ slotKey s :: after) :
    ∃ pre e post, m.toList = pre ++ (s, e) :: post ∧
      ∀ y, object (pre.map (fun p => member (slotKey p.1) (tokens p.2)) ++
        member y (tokens e) :: post.map fun p => member (slotKey p.1) (tokens p.2)) =
          before ++ y :: after := by
  have hobject : object (m.toList.map fun p => member (slotKey p.1) (tokens p.2)) =
      before ++ slotKey s :: after := h
  obtain ⟨pre, ⟨t, e⟩, post, hentries, ⟨hkey, hhole⟩ | ⟨c, a, hvalue, -⟩⟩ :=
    split_object rfl hobject
  · obtain rfl := slotKey_injective hkey
    exact ⟨pre, e, post, hentries, hhole⟩
  · exact absurd (hvalue ▸ by simp) (noKeys_entry e s)

/-- A token that is written like the key of a slot is the key of an entry. -/
theorem split_promise {m : Promise} {before after : List Token} {s : Slot}
    (h : tokens (Message.promise m) = before ++ slotKey s :: after) :
    ∃ pre e post, m.log.toList = pre ++ (s, e) :: post ∧
      ∀ key, before ++ key :: after = rekeyed m pre e post key := by
  have hvariant : object ([("Promise", tokens m)].map fun p => member (name p.1) p.2) =
      before ++ slotKey s :: after := h
  obtain ⟨pre, text, b, a, post, hfields, -, hhole⟩ :=
    split_fields rfl hvariant (@slotKey_ne_name "Promise" (by decide) s)
  obtain ⟨rfl, rfl, hcontent, rfl⟩ :
      pre = [] ∧ "Promise" = text ∧ tokens m = b ++ slotKey s :: a ∧ [] = post := by
    cases pre <;> simp_all
  have hpromise : object ([("ballot", tokens m.ballot), ("sender", word m.sender.toNat),
      ("log", tokens m.log)].map fun p => member (name p.1) p.2) = b ++ slotKey s :: a := hcontent
  obtain ⟨pre, text, d, c, post, hfields', -, hhole'⟩ :=
    split_fields rfl hpromise ⟨@slotKey_ne_name "ballot" (by decide) s,
      @slotKey_ne_name "sender" (by decide) s, @slotKey_ne_name "log" (by decide) s⟩
  rcases pre with - | ⟨p, - | ⟨q, - | ⟨o, pre⟩⟩⟩
  · obtain ⟨⟨-, hballot⟩, -⟩ : (_ ∧ tokens m.ballot = d ++ slotKey s :: c) ∧ _ := by
      simpa using hfields'
    exact absurd (hballot ▸ by simp) (noKeys_ballot m.ballot s)
  · obtain ⟨-, ⟨-, hsender⟩, -⟩ : _ ∧ (_ ∧ word m.sender.toNat = d ++ slotKey s :: c) ∧ _ := by
      simpa using hfields'
    exact absurd (hsender ▸ by simp) (noKeys_word m.sender.toNat s)
  · obtain ⟨rfl, rfl, ⟨rfl, hlog⟩, rfl⟩ :
        _ ∧ _ ∧ ("log" = text ∧ tokens m.log = d ++ slotKey s :: c) ∧ [] = post := by
      simpa using hfields'
    obtain ⟨pre, e, post, hentries, hkey⟩ := split_log hlog
    refine ⟨pre, e, post, hentries, fun key => ?_⟩
    rw [← hhole key, ← hhole' key, ← hkey key]
    rfl
  · simp at hfields'

/-! ## Numerals as keys -/

/-- A numeral needs no escapes. -/
theorem isBody_numeral (n : Numeral) : IsBody n.bytes := by
  have hdigits : ∀ ds : List Digit, ∀ b ∈ ds.map Decimal.ascii, isPlain b := fun ds b hb => by
    have hdigit : ∀ d : Digit, isPlain (Decimal.ascii d) := by decide
    obtain ⟨d, -, rfl⟩ := List.mem_map.mp hb
    exact hdigit d
  refine isBody_of_plain ?_
  rw [Numeral.bytes_eq]
  simp only [List.forall_mem_append]
  refine ⟨?_, hdigits n.whole, ?_, ?_⟩
  · cases n.negative <;> simp [isPlain]
  · cases n.fraction with
    | none => simp [Numeral.fractionBytes]
    | some ds => exact List.forall_mem_cons.mpr ⟨rfl, hdigits ds⟩
  · rcases n.exponent with - | ⟨capital, sign, ds⟩
    · simp [Numeral.exponentBytes?]
    · have he : isPlain (if capital then 0x45 else 0x65) := by cases capital <;> rfl
      refine List.forall_mem_cons.mpr ⟨he, List.forall_mem_append.mpr ⟨?_, hdigits ds⟩⟩
      rcases sign with - | - | - <;> simp [Numeral.signBytes, isPlain]

/-- A key is read like a number. -/
theorem keyWord_numeral {n : Numeral} (hn : n.wellFormed) :
    keyWord (n.bytes, false) = natural .word UInt64.size n.toNumber? := by
  have hscan := Numeral.scan?_bytes hn Numeral.ends_nil
  rw [List.append_nil] at hscan
  cases h : natural .word UInt64.size n.toNumber? <;> simp [keyWord, hscan, h]

section

variable {m : Promise} {pre post : List (Slot × PromisedEntry)} {e : PromisedEntry}

/-- With the key of a slot, the entry is read at that slot. -/
theorem reads_rekeyed (k : Slot) : Reads read (rekeyed m pre e post (slotKey k))
    (Message.promise { m with log := SlotMap.ofPairs (pre ++ (k, e) :: post) }) := by
  have hlog := reads_entries (readsEntries LawfulWire.reads (pre ++ (k, e) :: post))
  rw [List.map_append, List.map_cons] at hlog
  exact reads_variant (by decide) (.tail _ (.head _)) rfl <|
    (reads_readRecord3 "Promise" (by decide) (LawfulWire.reads m.ballot) (reads_readWord m.sender)
      hlog).map Message.promise

/-- A mistake in the log is one of the message. -/
theorem fails_promise {log : List Token} {err : DecodeError}
    (h : Fails (read : Reader (SlotMap PromisedEntry)) log err) :
    Fails (read : Reader Message) (variant "Promise" (object [field "ballot" m.ballot,
      member (name "sender") (word m.sender.toNat), member (name "log") log])) err := by
  have hrecord : Fails (read : Reader Promise) (object [field "ballot" m.ballot,
      member (name "sender") (word m.sender.toNat), member (name "log") log]) err :=
    fails_readRecord3 "Promise" (by decide) (LawfulWire.reads m.ballot) (reads_readWord m.sender) h
  exact fails_variant (by decide) (.tail _ (.head _)) rfl (hrecord.map Message.promise)

/-- What is no key is a mistake. -/
theorem fails_rekeyed {body : List UInt8} {err : DecodeError}
    (h : keyWord (body, false) = .error err) :
    Fails (read : Reader Message) (rekeyed m pre e post (.string body)) err :=
  fails_promise (fails_entries (readsEntries LawfulWire.reads pre) (.inl h) _)

/-- The log with the slot of an entry exchanged. -/
theorem ofPairs_rekeyed {log : SlotMap PromisedEntry} {s k : Slot}
    (h : log.toList = pre ++ (s, e) :: post) (hk : (log.erase s)[k]? = none) :
    SlotMap.ofPairs (pre ++ (k, e) :: post) = (log.erase s).insert k e := by
  have hs : log[s]? = some e :=
    Std.ExtTreeMap.mem_toList_iff_getElem?_eq_some.mp (h ▸ by simp)
  have hrest : (pre ++ post).Perm (log.erase s).toList := by
    have hperm := SlotMap.perm_cons_erase hs
    rw [h] at hperm
    exact (List.perm_middle.symm.trans hperm).cons_inv
  have hinserted : ((log.erase s).insert k e)[k]? = some e := by simp
  have herased : ((log.erase s).insert k e).erase k = log.erase s := by
    refine Std.ExtTreeMap.ext_getElem? fun t => ?_
    by_cases ht : k = t
    · subst ht
      rw [Std.ExtTreeMap.getElem?_erase_self, hk]
    · simp [Std.ExtTreeMap.getElem?_erase, Std.ExtTreeMap.getElem?_insert, ht]
  have hperm := SlotMap.perm_cons_erase hinserted
  rw [herased] at hperm
  exact ofPairs_of_perm ((List.perm_middle.trans (hrest.cons _)).trans hperm.symm)

end

end PaxosLog.Wire
