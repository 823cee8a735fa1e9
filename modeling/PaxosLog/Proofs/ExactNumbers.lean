import PaxosLog.Proofs.Wire.Keys

/-!
# Numbers are read exactly

Rounds, ids, slots and bytes are written as plain numerals. Where another numeral stands in the
place of one of them, a text either is the one of another value, with just that number there, or it
is rejected: no number is wrapped, rounded or cut off. Signs, points and exponents are rejected also
where they do not change the number, and so are numbers that do not fit.

* `ExactWire`: types all whose numbers decide what is read, for each type of the wire format.
* `decode_number`: what becomes of a text with another numeral, and `decode_key`: of a promise with
  another numeral as the key of an entry.

**`numbers_read_exactly`**: so it is for messages, ballots, commands and replies.
-/

namespace PaxosLog

open Json Wire

/-- Values all whose numbers decide what is read. -/
class ExactWire (α : Type) [Wire α] : Prop where
  exact : ∀ a : α, Exact read tokens a

/-! ## The types of the wire format -/

instance : ExactWire Ballot where
  exact b := exact_readRecord2 "Ballot" (fun _ _ => rfl) (by decide) (exact_word b.round)
    (exact_optionalWord b.owner) (reads_readWord b.round)

instance : ExactWire Command where
  exact
    | .noop => exact_of_noNumber (by simp [tokens, name])
    | .client payload => exact_variant (fun _ => rfl) (by decide) (.tail _ (.head _)) rfl rfl
        (exact_bytes payload)

instance : ExactWire PromisedEntry where
  exact e := exact_readRecord3 "PromisedEntry" (fun _ _ _ => rfl) (by decide)
    (ExactWire.exact e.command) (ExactWire.exact e.ballot) (exact_boolean e.committed)
    (LawfulWire.reads e.command) (LawfulWire.reads e.ballot)

instance {α : Type} [Wire α] [LawfulWire α] [ExactWire α] : ExactWire (SlotMap α) where
  exact := exact_log LawfulWire.reads ExactWire.exact

instance : ExactWire Prepare where
  exact m := exact_readRecord2 "Prepare" (fun _ _ => rfl) (by decide) (ExactWire.exact m.ballot)
    (exact_word m.start) (LawfulWire.reads m.ballot)

instance : ExactWire Promise where
  exact m := exact_readRecord3 "Promise" (fun _ _ _ => rfl) (by decide) (ExactWire.exact m.ballot)
    (exact_word m.sender) (ExactWire.exact m.log) (LawfulWire.reads m.ballot)
    (reads_readWord m.sender)

instance : ExactWire Accept where
  exact m := exact_readRecord3 "Accept" (fun _ _ _ => rfl) (by decide) (ExactWire.exact m.ballot)
    (exact_word m.slot) (ExactWire.exact m.command) (LawfulWire.reads m.ballot)
    (reads_readWord m.slot)

instance : ExactWire Accepted where
  exact m := exact_readRecord3 "Accepted" (fun _ _ _ => rfl) (by decide) (ExactWire.exact m.ballot)
    (exact_word m.slot) (exact_word m.sender) (LawfulWire.reads m.ballot) (reads_readWord m.slot)

instance : ExactWire Commit where
  exact m := exact_readRecord3 "Commit" (fun _ _ _ => rfl) (by decide) (ExactWire.exact m.ballot)
    (exact_word m.slot) (ExactWire.exact m.command) (LawfulWire.reads m.ballot)
    (reads_readWord m.slot)

/-- The numbers of a message are those of its content. -/
theorem exact_messageVariant {α : Type} [Wire α] [ExactWire α] {key : String} {build : α → Message}
    {variants : List (Variant Message)} (hnames : AreNames (variants.map (·.name)))
    (hmem : messageVariant key build ∈ variants)
    (hwrite : ∀ a, tokens (build a) = variant key (tokens a)) (a : α) :
    Exact (readVariant variants) tokens (build a) :=
  exact_variant hwrite hnames hmem rfl rfl (ExactWire.exact a)

instance : ExactWire Message where
  exact
    | .prepare m => exact_messageVariant (by decide) (.head _) (fun _ => rfl) m
    | .promise m => exact_messageVariant (by decide) (.tail _ (.head _)) (fun _ => rfl) m
    | .accept m => exact_messageVariant (by decide) (.tail _ (.tail _ (.head _))) (fun _ => rfl) m
    | .accepted m =>
      exact_messageVariant (by decide) (.tail _ (.tail _ (.tail _ (.head _)))) (fun _ => rfl) m
    | .commit m =>
      exact_messageVariant (by decide) (.tail _ (.tail _ (.tail _ (.tail _ (.head _)))))
        (fun _ => rfl) m

instance : ExactWire CommandReply where
  exact r := exact_readRecord3 "CommandReply" (fun _ _ _ => rfl) (by decide) (exact_word r.slot)
    (exact_bytes r.command) (exact_bytes r.value) (reads_readWord r.slot) (reads_bytes r.command)

/-! ## Texts with another numeral -/

/-- Something is read if and only if `p` holds, and then it is as `Q` says. -/
def ReadsIf {α : Type} (result : Except DecodeError α) (p : Prop) (Q : α → Prop) : Prop :=
  ((∃ a, result = .ok a) ↔ p) ∧ ∀ a, result = .ok a → Q a

section

variable {α : Type} {result : Except DecodeError α} {p : Prop} {Q : α → Prop}

theorem readsIf_of_ok {a : α} (hp : p) (hresult : result = .ok a) (hQ : Q a) :
    ReadsIf result p Q := by
  refine ⟨⟨fun _ => hp, fun _ => ⟨a, hresult⟩⟩, fun b hb => ?_⟩
  obtain rfl : a = b := Except.ok.inj (hresult.symm.trans hb)
  exact hQ

theorem readsIf_of_error {e : DecodeError} (hp : ¬ p) (hresult : result = .error e) :
    ReadsIf result p Q := by
  have hnone : ∀ a, result ≠ .ok a := fun a ha => nomatch hresult.symm.trans ha
  exact ⟨⟨fun ⟨a, ha⟩ => absurd ha (hnone a), fun h => absurd h hp⟩,
    fun a ha => absurd ha (hnone a)⟩

variable [Wire α]

theorem decode_of_reads {text : Bytes} {ts : List Token} {a : α} (hscan : scan text = ts)
    (h : Reads read ts a) : decode text = .ok a := by
  have hread := h []
  rw [List.append_nil, ← hscan] at hread
  simp [decode, readAll, hread]

theorem decode_of_fails {text : Bytes} {ts : List Token} {e : DecodeError} (hscan : scan text = ts)
    (h : Fails (read : Reader α) ts e) : (decode text : Except DecodeError α) = .error e := by
  have hread := h []
  rw [List.append_nil, ← hscan] at hread
  simp [decode, readAll, hread]

variable [LawfulWire α]

/-- With another token of the same kind, a text is still scanned into its tokens. -/
theorem scan_replaced {a : α} {before after : List Token} {t u : Token}
    (h : tokens a = before ++ t :: after) (hu : u.Proper) (hn : u.isNumber = t.isNumber) :
    scan (render before ++ u.bytes ++ render after) = before ++ u :: after := by
  have hneat : Neat (before ++ u :: after) := neat_replace (h ▸ LawfulWire.neat a) hu hn
  rw [← scan_of_spells (spells_render hneat)]
  simp [render]

/-- With another numeral, a text is the one of another value or is rejected. -/
theorem decode_number [ExactWire α] {a : α} {before after : List Token} {n t : Numeral}
    (h : tokens a = before ++ .number n :: after) (ht : t.wellFormed) :
    ReadsIf (decode (render before ++ t.bytes ++ render after)) (t.Below (limitBehind before))
      fun b : α => tokens b = before ++ .number (.ofNat (Decimal.value t.whole)) :: after := by
  have hinge := ExactWire.exact a before n after h
  have hscan : scan (render before ++ t.bytes ++ render after) = before ++ .number t :: after :=
    scan_replaced (u := .number t) h ht rfl
  by_cases hbelow : t.Below (limitBehind before)
  · obtain ⟨b, hb⟩ := hinge.admits _ hbelow.lt
    have htokens : tokens b = before ++ .number t :: after := by rw [hb, ← hbelow.eq_ofNat ht]
    exact readsIf_of_ok hbelow (decode_of_reads (hscan.trans htokens.symm) (LawfulWire.reads b)) hb
  · obtain ⟨e, he⟩ := hinge.refuses t hbelow
    exact readsIf_of_error hbelow (decode_of_fails hscan he)

end

/-- With another numeral as the key of an entry, a promise is read with the entry at the slot of
that numeral, or rejected. -/
theorem decode_key {m : Promise} {before after : List Token} {s : Slot} {t : Numeral}
    (h : tokens (Message.promise m) = before ++ slotKey s :: after) (ht : t.wellFormed) :
    ReadsIf (decode (render before ++ (Token.string t.bytes).bytes ++ render after))
      (t.Below UInt64.size) fun b => ∃ (k : Slot) (e : PromisedEntry),
        k.toNat = Decimal.value t.whole ∧ m.log[s]? = some e ∧
        ((m.log.erase s)[k]? = none →
          b = Message.promise { m with log := (m.log.erase s).insert k e }) := by
  obtain ⟨pre, e, post, hentries, hhole⟩ := split_promise h
  have hscan := scan_replaced (u := .string t.bytes) h (isBody_numeral t) rfl
  rw [hhole] at hscan
  by_cases hbelow : t.Below UInt64.size
  · have hk := UInt64.toNat_ofNat_of_lt' hbelow.lt
    have hkey : .string t.bytes = slotKey (UInt64.ofNat (Decimal.value t.whole)) := by
      rw [slotKey, hk, ← Numeral.bytes_ofNat, ← hbelow.eq_ofNat ht]
    have he : m.log[s]? = some e :=
      Std.ExtTreeMap.mem_toList_iff_getElem?_eq_some.mp (hentries ▸ by simp)
    rw [hkey] at hscan ⊢
    exact readsIf_of_ok hbelow (decode_of_reads hscan (reads_rekeyed _))
      ⟨_, e, hk, he, fun hfree => by rw [ofPairs_rekeyed hentries hfree]⟩
  · obtain ⟨err, herr⟩ := natural_refuses hbelow .word
    exact readsIf_of_error hbelow
      (decode_of_fails hscan (fails_rekeyed ((keyWord_numeral ht).trans herr)))

/-! ## Exactness -/

/-- Whatever numeral stands in the place of a number in the text of such a value, the text is
decoded if and only if it is a plain numeral of a number that fits, and what is decoded is written
with just that number there. -/
def NumbersExact (α : Type) [Wire α] : Prop :=
  ∀ (a : α) (before : List Token) (n : Numeral) (after : List Token) (t : Numeral),
    tokens a = before ++ .number n :: after → t.wellFormed →
    ReadsIf (decode (render before ++ t.bytes ++ render after)) (t.Below (limitBehind before))
      fun b : α => tokens b = before ++ .number (.ofNat (Decimal.value t.whole)) :: after

/-- **Numbers are read exactly.** In the text of a message, a ballot, a command or a reply, any
other numeral in the place of a number is read as the number that it stands for, or the text is
rejected. The same holds for the key of a promised entry: as long as there is no other entry at the
new slot, the promise is read with the entry there. -/
theorem numbers_read_exactly :
    NumbersExact Message ∧ NumbersExact Ballot ∧ NumbersExact Command ∧
      NumbersExact CommandReply ∧
    ∀ (m : Promise) (before : List Token) (s : Slot) (after : List Token) (t : Numeral),
      tokens (Message.promise m) = before ++ slotKey s :: after → t.wellFormed →
      ReadsIf (decode (render before ++ (Token.string t.bytes).bytes ++ render after))
        (t.Below UInt64.size) fun b => ∃ (k : Slot) (e : PromisedEntry),
          k.toNat = Decimal.value t.whole ∧ m.log[s]? = some e ∧
          ((m.log.erase s)[k]? = none →
            b = Message.promise { m with log := (m.log.erase s).insert k e }) :=
  ⟨fun _ _ _ _ _ h ht => decode_number h ht, fun _ _ _ _ _ h ht => decode_number h ht,
    fun _ _ _ _ _ h ht => decode_number h ht, fun _ _ _ _ _ h ht => decode_number h ht,
    fun _ _ _ _ _ h ht => decode_key h ht⟩

/-- A request for votes is read with the largest slot of 64 bits. One more, minus zero, and a number
with a point are rejected in its place. And the entry of a promise is read at slot 7 if its key says
so. -/
theorem numbers_read_exactly_slot :
    let head := ascii "\x7b\"Accept\":\x7b\"ballot\":\x7b\"round\":1,\"owner\":null\x7d,\"slot\":"
    let tail := ascii ",\"command\":\"Noop\"\x7d\x7d"
    let logHead := ascii ("\x7b\"Promise\":\x7b\"ballot\":\x7b\"round\":1,\"owner\":null\x7d," ++
      "\"sender\":2,\"log\":\x7b")
    let logTail := ascii (":\x7b\"command\":\"Noop\",\"ballot\":\x7b\"round\":1," ++
      "\"owner\":null\x7d,\"committed\":true\x7d\x7d\x7d\x7d")
    let promise := fun s : Slot => Message.promise
      ⟨⟨1, none⟩, 2, (∅ : SlotMap PromisedEntry).insert s ⟨.noop, ⟨1, none⟩, true⟩⟩
    decode (head ++ ascii "18446744073709551615" ++ tail) =
      .ok (Message.accept ⟨⟨1, none⟩, 18446744073709551615, .noop⟩) ∧
    (¬ ∃ b : Message, decode (head ++ ascii "18446744073709551616" ++ tail) = .ok b) ∧
    (¬ ∃ b : Message, decode (head ++ ascii "-0" ++ tail) = .ok b) ∧
    (¬ ∃ b : Message, decode (head ++ ascii "3.0" ++ tail) = .ok b) ∧
    decode (logHead ++ ascii "\"7\"" ++ logTail) = .ok (promise 7) := by
  obtain ⟨hnumbers, -, -, -, hkeys⟩ := numbers_read_exactly
  intro head tail logHead logTail promise
  obtain ⟨before, after, hsplit, hlimit, hhead, htail⟩ : ∃ before after : List Token,
      (∀ s : Slot, tokens (Message.accept ⟨⟨1, none⟩, s, .noop⟩) =
        before ++ .number (.ofNat s.toNat) :: after) ∧
      limitBehind before = UInt64.size ∧ render before = head ∧ render after = tail :=
    ⟨(tokens (Message.accept ⟨⟨1, none⟩, 2, .noop⟩)).take 18,
      (tokens (Message.accept ⟨⟨1, none⟩, 2, .noop⟩)).drop 19, fun s => rfl,
      by decide +kernel, by decide +kernel, by decide +kernel⟩
  obtain ⟨logBefore, logAfter, hentry, hlogHead, hlogTail⟩ : ∃ before after : List Token,
      tokens (promise 5) = before ++ slotKey 5 :: after ∧
      render before = logHead ∧ render after = logTail :=
    ⟨(tokens (promise 5)).take 23, (tokens (promise 5)).drop 24, by decide +kernel,
      by decide +kernel, by decide +kernel⟩
  clear_value head tail logHead logTail
  have hread : ∀ (t : Numeral) (slot : String), t.wellFormed → t.bytes = ascii slot →
      ReadsIf (decode (head ++ ascii slot ++ tail)) (t.Below UInt64.size) fun b : Message =>
        tokens b = before ++ .number (.ofNat (Decimal.value t.whole)) :: after := by
    intro t slot ht hbytes
    rw [← hhead, ← htail, ← hbytes, ← hlimit]
    exact hnumbers _ _ _ _ t (hsplit 2) ht
  refine ⟨?_, ?_, ?_, ?_, ?_⟩
  · obtain ⟨hiff, htokens⟩ := hread (.ofNat 18446744073709551615) "18446744073709551615"
      (by decide +kernel) (by decide +kernel)
    obtain ⟨b, hb⟩ := hiff.mpr (Numeral.below_ofNat (by decide))
    have hsame : encode b = encode (Message.accept ⟨⟨1, none⟩, 18446744073709551615, .noop⟩) := by
      rw [encode, htokens b hb, encode, hsplit]
      rfl
    rwa [encode_injective hsame] at hb
  · have hlarge := (hread (.ofNat 18446744073709551616) "18446744073709551616" (by decide +kernel)
      (by decide +kernel)).1
    exact fun h => absurd (hlarge.mp h).lt (by decide +kernel)
  · have hsign := (hread ⟨true, [0], none, none⟩ "-0" rfl (by decide +kernel)).1
    exact fun h => absurd (hsign.mp h).unsigned (by decide)
  · have hpoint := (hread ⟨false, [3], some [0], none⟩ "3.0" rfl (by decide +kernel)).1
    exact fun h => absurd (hpoint.mp h).noPoint (by decide)
  · have hseven := hkeys _ _ _ _ (.ofNat 7) hentry (by decide +kernel)
    have hbytes : (Token.string (Numeral.ofNat 7).bytes).bytes = ascii "\"7\"" := by decide +kernel
    rw [hbytes, hlogHead, hlogTail] at hseven
    obtain ⟨b, hb⟩ := hseven.1.mpr (Numeral.below_ofNat (by decide))
    obtain ⟨k, e, hk, he, hlog⟩ := hseven.2 b hb
    have hk7 : k = 7 := by
      rw [← UInt64.toNat_inj, hk]
      decide +kernel
    obtain rfl : (⟨.noop, ⟨1, none⟩, true⟩ : PromisedEntry) = e := by simpa using he
    subst hk7
    have hempty : ((∅ : SlotMap PromisedEntry).insert 5 ⟨.noop, ⟨1, none⟩, true⟩).erase 5 = ∅ := by
      refine Std.ExtTreeMap.ext_getElem? fun s => ?_
      rw [Std.ExtTreeMap.getElem?_erase, Std.ExtTreeMap.getElem?_insert]
      by_cases hs : 5 = s <;> simp [hs]
    rw [hempty] at hlog
    rw [hb, hlog (by simp)]

end PaxosLog
