import PaxosLog.Proofs.Wire
import PaxosLog.Proofs.Wire.Extent

/-!
# Texts tell where they end

The text of a message is a frame of its own: it says by itself where it ends. A reader that is done
has looked at nothing behind the token that closes its value (`Delimited`), so what it reads off a
cut text it also reads off the whole one, and leaves there what was cut off. Since it leaves nothing
of a whole text, nothing but blanks was cut off, and no text ends with a blank
(`decode_truncated`).

* `decode_append`: what stands behind a text is left as it is.
* **`self_delimiting`**: messages, ballots, commands and replies are self-delimiting.
-/

namespace PaxosLog

open Json Wire

/-- Values whose reader is done with a token that tells where it ends. -/
class Delimited (α : Type) [Wire α] : Prop where
  takes : Takes Closed (read : Reader α)

/-! ## Whole texts -/

theorem readAll_eq_ok {α : Type} {r : Reader α} {text : List UInt8} {a : α} :
    readAll r text = .ok a ↔ r (scan text) = .ok (a, []) := by
  constructor
  · intro h
    obtain ⟨⟨b, rest⟩, hr, hend⟩ := bind_eq_ok.mp h
    by_cases hrest : rest = []
    · subst hrest
      cases hend
      exact hr
    · simp only [hrest, if_false] at hend
      cases hend
  · intro h
    simp [readAll, h]

/-- A token that tells where it ends does not end with a blank. -/
theorem Json.Token.getLast_bytes {t : Token} (ht : t.Proper) (hclosed : t.isClosed = true) :
    ∃ b, t.bytes.getLast? = some b ∧ isBlank b = false := by
  cases t with
  | boolean b => cases b <;> exact ⟨_, rfl, by decide⟩
  | string body =>
    exact ⟨0x22, List.getLast?_append_of_ne_nil (0x22 :: body) (List.cons_ne_nil _ _), by decide⟩
  | number n => cases hclosed
  | unclosed body => exact ht.elim
  | garbage => exact ht.elim
  | _ => exact ⟨_, rfl, by decide⟩

section

variable {α : Type} [Wire α] [LawfulWire α] [Delimited α]

/-- The last token of a value tells where it ends. -/
theorem tokens_concat (a : α) : ∃ us t, tokens a = us ++ [t] ∧ t.isClosed = true := by
  obtain ⟨us, t, htokens, hclosed, -⟩ := Delimited.takes _ _ _ (LawfulWire.reads a [])
  rw [List.append_nil] at htokens
  exact ⟨us, t, htokens, hclosed⟩

/-- No text ends with a blank. -/
theorem getLast_encode (a : α) : ∃ b, (encode a).getLast? = some b ∧ isBlank b = false := by
  obtain ⟨us, t, htokens, hclosed⟩ := tokens_concat a
  have hproper : t.Proper := (LawfulWire.neat a).1 t (by simp [htokens])
  obtain ⟨b, hbytes, hb⟩ := t.getLast_bytes hproper hclosed
  have hencode : encode a = render us ++ t.bytes := by simp [encode, htokens, render]
  exact ⟨b, by rw [hencode, List.getLast?_append, hbytes]; rfl, hb⟩

/-- What stands behind a text is scanned by itself, and left by the reader. -/
theorem decode_append (a : α) (more : Bytes) :
    decode (encode a ++ more) =
      if scan more = [] then (.ok a : Except DecodeError α) else .error .malformed := by
  obtain ⟨us, t, htokens, hclosed⟩ := tokens_concat a
  have hscan : scan (encode a ++ more) = tokens a ++ scan more := by
    rw [scan_append ((scan_encode a).trans htokens) hclosed, scan_encode]
  have hread := LawfulWire.reads a (scan more)
  rw [decode, readAll, hscan, hread]
  rfl

/-- A text that is cut off is no text. -/
theorem decode_truncated {a : α} {part rest : Bytes} (h : part ++ rest = encode a)
    (hrest : rest ≠ []) (b : α) : decode part ≠ .ok b := by
  intro hdecode
  have hpart : read (scan part) = .ok (b, []) := readAll_eq_ok.mp hdecode
  obtain ⟨us, t, hscan, hclosed, hreads⟩ := Delimited.takes _ _ _ hpart
  -- The reader takes the same value off the whole text, and leaves what was cut off.
  have hwhole : tokens a = (us ++ [t]) ++ scan rest := by
    rw [← scan_encode a, ← h, scan_append hscan hclosed, hscan]
  have hleft := hreads (scan rest)
  rw [← hwhole, ← List.append_nil (tokens a), LawfulWire.reads a []] at hleft
  have hblank := scan_eq_nil_iff.mp (congrArg Prod.snd (Except.ok.inj hleft)).symm
  -- But the last byte of the whole text is no blank.
  obtain ⟨last, hlast, hb⟩ := getLast_encode a
  rw [← h, List.getLast?_append_of_ne_nil _ hrest] at hlast
  rw [hblank last (List.mem_of_getLast? hlast)] at hb
  cases hb

end

/-! ## The types of the wire format -/

theorem takes_readWord : Takes Any readWord := takes_readNatural _ _

theorem takes_readBytes : Takes Any (readList readByte) := (takes_readList takes_readByte).any

theorem Delimited.any {α : Type} [Wire α] [Delimited α] : Takes Any (read : Reader α) :=
  Delimited.takes.any

instance : Delimited Ballot where
  takes := takes_readRecord2 _ _ takes_readWord (takes_readOption takes_readWord)

instance : Delimited Command where
  takes := by
    refine takes_readVariant fun v hv => ?_
    simp only [List.mem_cons, List.not_mem_nil, or_false] at hv
    rcases hv with rfl | rfl
    · exact (takes_readUnit.map fun _ => Command.noop).any
    · exact takes_readBytes.map Command.client

instance : Delimited PromisedEntry where
  takes := takes_readRecord3 _ _ Delimited.takes Delimited.takes takes_readBoolean

instance {α : Type} [Wire α] [Delimited α] : Delimited (SlotMap α) where
  takes := takes_readLog Delimited.takes

instance : Delimited Prepare where
  takes := takes_readRecord2 _ _ Delimited.takes takes_readWord

instance : Delimited Promise where
  takes := takes_readRecord3 _ _ Delimited.takes takes_readWord Delimited.takes

instance : Delimited Accept where
  takes := takes_readRecord3 _ _ Delimited.takes takes_readWord Delimited.takes

instance : Delimited Accepted where
  takes := takes_readRecord3 _ _ Delimited.takes takes_readWord takes_readWord

instance : Delimited Commit where
  takes := takes_readRecord3 _ _ Delimited.takes takes_readWord Delimited.takes

instance : Delimited Message where
  takes := by
    refine takes_readVariant fun v hv => ?_
    simp only [List.mem_cons, List.not_mem_nil, or_false] at hv
    rcases hv with rfl | rfl | rfl | rfl | rfl
    all_goals exact Delimited.takes.any.map _

instance : Delimited CommandReply where
  takes := takes_readRecord3 _ _ takes_readWord takes_readBytes takes_readBytes

/-! ## Frames -/

/-- The text of a value is a frame: it says by itself where it ends. -/
structure SelfDelimiting (α : Type) [Wire α] : Prop where
  /-- A text that is cut off at any place is no text of the type. -/
  truncated : ∀ (a : α) (part rest : Bytes), part ++ rest = encode a → rest ≠ [] →
    ∀ b : α, decode part ≠ .ok b
  /-- Blanks behind a text do not count. -/
  padded : ∀ (a : α) (blanks : Bytes), (∀ b ∈ blanks, isBlank b = true) →
    decode (encode a ++ blanks) = .ok a
  /-- Anything else behind a text is an error. -/
  followed : ∀ (a : α) (more : Bytes), (∃ b ∈ more, isBlank b = false) →
    (decode (encode a ++ more) : Except DecodeError α) = .error .malformed
  /-- Two texts are not read as one. -/
  glued : ∀ a b : α, (decode (encode a ++ encode b) : Except DecodeError α) = .error .malformed

theorem selfDelimiting (α : Type) [Wire α] [LawfulWire α] [Delimited α] : SelfDelimiting α where
  truncated _ _ _ := decode_truncated
  padded a blanks h := by rw [decode_append, if_pos (scan_eq_nil_iff.mpr h)]
  followed a more h := by
    obtain ⟨b, hmem, hb⟩ := h
    have hmore : scan more ≠ [] := fun hnil => by simp [scan_eq_nil_iff.mp hnil b hmem] at hb
    rw [decode_append, if_neg hmore]
  glued a b := by
    obtain ⟨us, t, htokens, -⟩ := tokens_concat b
    rw [decode_append, scan_encode, htokens, if_neg (by simp)]

/-- **Messages, ballots, commands and replies are self-delimiting.** -/
theorem self_delimiting :
    SelfDelimiting Message ∧ SelfDelimiting Ballot ∧ SelfDelimiting Command ∧
      SelfDelimiting CommandReply :=
  ⟨selfDelimiting _, selfDelimiting _, selfDelimiting _, selfDelimiting _⟩

end PaxosLog
