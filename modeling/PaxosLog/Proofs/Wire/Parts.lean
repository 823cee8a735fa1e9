import PaxosLog.Proofs.Json.Scan
import PaxosLog.Wire

/-!
# Parts of texts

What is written is neat, so that it is scanned into the tokens it was made of, and it is read back:
`Reads r ts a` says that the reader `r` takes the value `a` off the tokens `ts`, whatever stands
behind them, and leaves the rest. This module has both for words, bytes, truth values, names,
optional words and lists, and the shape of `separated` that all readers of sequences go by: a first
part, and every other one behind a comma.
-/

namespace PaxosLog.Wire

open Json

/-! ## Neat texts -/

/-- Each of these parts behind a comma. -/
def behindCommas (parts : List (List Token)) : List Token := parts.flatMap (.comma :: ·)

theorem behindCommas_cons (p : List Token) (ps : List (List Token)) :
    behindCommas (p :: ps) = .comma :: (p ++ behindCommas ps) := rfl

theorem separated_cons (p : List Token) (ps : List (List Token)) :
    separated (p :: ps) = p ++ behindCommas ps := by
  induction ps generalizing p with
  | nil => simp [separated, behindCommas]
  | cons q qs ih => rw [separated, ih q, behindCommas_cons]; simp

theorem length_le_behindCommas (parts : List (List Token)) :
    parts.length ≤ (behindCommas parts).length := by
  induction parts with
  | nil => simp
  | cons p ps ih =>
    simp only [behindCommas_cons, List.length_append, List.length_cons]
    omega

/-- A sequence has at most one part more than it has tokens. -/
theorem length_le_separated (parts : List (List Token)) :
    parts.length ≤ (separated parts).length + 1 := by
  cases parts with
  | nil => simp
  | cons p ps =>
    have := length_le_behindCommas ps
    simp only [separated_cons, List.length_append, List.length_cons]
    omega

theorem neat_nil : Neat [] := ⟨by simp, .nil⟩

/-- A token at the start that is no numeral. -/
theorem neat_cons {t : Token} {ts : List Token} (hn : t.isNumber = false) :
    Neat (t :: ts) ↔ t.Proper ∧ Neat ts := by
  have h := @neat_append_cons [] ts t hn
  simpa [neat_nil] using h

theorem neat_separated {parts : List (List Token)} (h : ∀ p ∈ parts, Neat p) :
    Neat (separated parts) := by
  induction parts with
  | nil => exact neat_nil
  | cons p ps ih =>
    have hps := ih fun q hq => h q (by simp [hq])
    cases ps with
    | nil => exact h p (by simp)
    | cons q qs => exact (neat_append_cons rfl).mpr ⟨h p (by simp), trivial, hps⟩

theorem neat_object {members : List (List Token)} (h : members.Forall Neat) :
    Neat (object members) :=
  (neat_cons rfl).mpr ⟨trivial, (neat_append_cons rfl).mpr
    ⟨neat_separated (List.forall_iff_forall_mem.mp h), trivial, neat_nil⟩⟩

theorem neat_list {elements : List (List Token)} (h : ∀ e ∈ elements, Neat e) :
    Neat (list elements) :=
  (neat_cons rfl).mpr
    ⟨trivial, (neat_append_cons rfl).mpr ⟨neat_separated h, trivial, neat_nil⟩⟩

theorem neat_word (n : Nat) : Neat (word n) :=
  ⟨by simpa [word, Token.Proper] using Numeral.ofNat_wellFormed n, by simp [word]⟩

theorem neat_optionalWord (n : Option UInt64) : Neat (optionalWord n) := by
  cases n with
  | none => exact (neat_cons rfl).mpr ⟨trivial, neat_nil⟩
  | some n => exact neat_word n.toNat

theorem neat_boolean (b : Bool) : Neat [.boolean b] := (neat_cons rfl).mpr ⟨trivial, neat_nil⟩

theorem neat_bytes (bs : Bytes) : Neat (bytes bs) := by
  refine neat_list fun e he => ?_
  obtain ⟨b, -, rfl⟩ := List.mem_map.mp he
  exact neat_word b.toNat

/-! ## Names -/

/-- Characters that stand for themselves in a string, one byte each. -/
def IsName (cs : List Char) : Prop :=
  ∀ c ∈ cs, 0x20 ≤ c.toNat ∧ c.toNat < 0x80 ∧ c.toNat ≠ 0x22 ∧ c.toNat ≠ 0x5c

-- By going through the list; the instance for all characters would be of no use.
instance (cs : List Char) : Decidable (IsName cs) := List.decidableBAll _ cs

theorem isBody_ascii {text : String} (h : IsName text.toList) : IsBody (ascii text) := by
  refine isBody_of_plain fun b hb => ?_
  obtain ⟨c, hc, rfl⟩ := List.mem_map.mp hb
  obtain ⟨hlow, hhigh, hquote, hslash⟩ := h c hc
  simp only [isPlain, Bool.and_eq_true, decide_eq_true_eq, UInt8.le_iff_toNat_le,
    ← UInt8.toNat_inj, ne_eq, Nat.toUInt8_eq, UInt8.toNat_ofNat', UInt8.toNat_ofNat]
  omega

theorem neat_member {body : List UInt8} {value : List Token} (hbody : IsBody body)
    (hvalue : Neat value) : Neat (member (.string body) value) :=
  (neat_cons rfl).mpr ⟨hbody, (neat_cons rfl).mpr ⟨trivial, hvalue⟩⟩

theorem neat_field {text : String} {value : List Token} (htext : IsName text.toList)
    (hvalue : Neat value) : Neat (member (name text) value) :=
  neat_member (isBody_ascii htext) hvalue

theorem neat_variant {text : String} {content : List Token} (htext : IsName text.toList)
    (hcontent : Neat content) : Neat (variant text content) :=
  neat_object (neat_field htext hcontent)

theorem decodeAfter_cons (read : List Char) {b : UInt8} (hescape : b ≠ 0x5c) (hascii : b < 0x80)
    (rest : List UInt8) :
    Text.decodeAfter read (b :: rest) = Text.decodeAfter (Char.ofNat b.toNat :: read) rest := by
  rw [Text.decodeAfter.eq_def]
  split
  · contradiction
  · cases ‹b :: rest = _›; contradiction
  · cases ‹b :: rest = _›; contradiction
  · cases ‹b :: rest = _›; rw [if_pos hascii]

theorem decodeAfter_ascii (read : List Char) {cs : List Char} (h : IsName cs) :
    Text.decodeAfter read (cs.map fun c => c.toNat.toUInt8) = some (read.reverse ++ cs) := by
  induction cs generalizing read with
  | nil => simp [Text.decodeAfter]
  | cons c cs ih =>
    obtain ⟨-, hhigh, -, hslash⟩ := h c (by simp)
    have hbyte : c.toNat.toUInt8.toNat = c.toNat := by
      simp only [Nat.toUInt8_eq, UInt8.toNat_ofNat']
      omega
    have hescape : c.toNat.toUInt8 ≠ 0x5c := by
      rw [ne_eq, ← UInt8.toNat_inj, hbyte]
      exact hslash
    have hascii : c.toNat.toUInt8 < 0x80 := by
      rw [UInt8.lt_iff_toNat_lt, hbyte]
      exact hhigh
    rw [List.map_cons, decodeAfter_cons read hescape hascii, hbyte, Char.ofNat_toNat,
      ih _ fun d hd => h d (by simp [hd])]
    simp

/-- A name is read as it was written. -/
theorem keyName_ascii {text : String} (h : IsName text.toList) :
    keyName (ascii text, false) = .ok text.toList := by
  simp [keyName, Text.decode, ascii, decodeAfter_ascii [] h]

/-- Names that can be told apart: different ones, without escapes. -/
def AreNames (names : List String) : Prop := names.Nodup ∧ ∀ n ∈ names, IsName n.toList

instance (names : List String) : Decidable (AreNames names) :=
  inferInstanceAs (Decidable (names.Nodup ∧ ∀ n ∈ names, IsName n.toList))

/-- What has a name of its own is found by its name. -/
theorem AreNames.find {α : Type} {label : α → String} {as : List α} (h : AreNames (as.map label))
    {a : α} (hmem : a ∈ as) {text : String} (htext : label a = text) :
    (as.find? fun b => (label b).toList = text.toList) = some a := by
  subst htext
  obtain ⟨hnodup, hnames⟩ := h
  induction as with
  | nil => cases hmem
  | cons b as ih =>
    obtain ⟨hb, has⟩ := List.nodup_cons.mp hnodup
    rcases List.mem_cons.mp hmem with rfl | hmem
    · simp
    · have hne : label b ≠ label a := fun he => hb (List.mem_map.mpr ⟨a, hmem, he.symm⟩)
      simp [String.toList_inj, hne, ← ih hmem has fun n hn => hnames n (by simp [hn])]

/-! ## Reading back -/

/-- Behind a part that was read, reading goes on. -/
@[simp] theorem ok_bind {α β : Type} (a : α) (f : α → Except DecodeError β) :
    (Except.ok a >>= f) = f a := rfl

@[simp] theorem pure_eq_ok {α : Type} (a : α) : (pure a : Except DecodeError α) = .ok a := rfl

/-- The reader takes the value off these tokens, and leaves what stands behind them. -/
def Reads {α : Type} (r : Reader α) (ts : List Token) (a : α) : Prop :=
  ∀ rest, r (ts ++ rest) = .ok (a, rest)

section

variable {α β : Type} {r : Reader α} {ts : List Token} {a : α}

theorem Reads.map (h : Reads r ts a) (f : α → β) :
    Reads (fun ts => (r ts).map fun (a, rest) => (f a, rest)) ts (f a) := fun rest => by
  simp [h rest, Except.map]

theorem Reads.some (h : Reads r ts a) (hnull : ts.head? ≠ some .null) (hts : ts ≠ []) :
    Reads (readOption r) ts (some a) := fun rest => by
  obtain ⟨t, us, rfl⟩ := List.exists_cons_of_ne_nil hts
  have hne : t ≠ .null := fun he => hnull (by simp [he])
  have hr : r (t :: (us ++ rest)) = .ok (a, rest) := h rest
  simp [readOption, hne, hr, Except.map]

theorem reads_readNatural {shape : Shape} {limit : Nat} {n : UInt64} (hn : n.toNat < limit) :
    Reads (readNatural shape limit) (word n.toNat) n := fun rest => by
  simp [word, readNatural, natural, hn, Except.map]

theorem reads_readWord (n : UInt64) : Reads readWord (word n.toNat) n :=
  reads_readNatural n.toNat_lt

theorem reads_readByte (b : UInt8) : Reads readByte (word b.toNat) b := by
  have h : Reads (readNatural .byte 256) (word b.toUInt64.toNat) b.toUInt64 :=
    reads_readNatural (by simpa using b.toNat_lt)
  have hmap := h.map UInt64.toUInt8
  rwa [UInt8.toUInt8_toUInt64, UInt8.toNat_toUInt64] at hmap

theorem reads_readBoolean (b : Bool) : Reads readBoolean [.boolean b] b := fun _ => rfl

theorem reads_optionalWord {shape : Shape} (n : Option UInt64) :
    Reads (readOption (readNatural shape UInt64.size)) (optionalWord n) n := by
  cases n with
  | none => exact fun _ => rfl
  | some n => exact (reads_readNatural n.toNat_lt).some (by simp [word]) (by simp [word])

end

/-! ## Lists -/

/-- The tokens of an element of a list: they do not start with what ends a list or its parts. -/
def IsElement (ts : List Token) : Prop :=
  ∃ t us, ts = t :: us ∧ t ≠ .rightBracket ∧ t ≠ .comma

section

variable {α : Type} {r : Reader α} {write : α → List Token}

theorem nextElement_first {ts : List Token} (h : IsElement ts) (rest : List Token) :
    nextElement true (ts ++ rest) = .ok (true, ts ++ rest) := by
  obtain ⟨t, us, rfl, hbracket, hcomma⟩ := h
  simp [nextElement]

theorem nextElement_comma {ts : List Token} (h : IsElement ts) (rest : List Token) :
    nextElement false (.comma :: (ts ++ rest)) = .ok (true, ts ++ rest) := by
  obtain ⟨t, us, rfl, hbracket, -⟩ := h
  simp [nextElement, hbracket]

/-- Reads the elements behind the first one. -/
theorem readElements_behindCommas (as : List α) (hread : ∀ a ∈ as, Reads r (write a) a)
    (helement : ∀ a ∈ as, IsElement (write a)) {read : List α} (hne : read ≠ []) {count : Nat}
    (hcount : as.length < count) (rest : List Token) :
    readElements r read count (behindCommas (as.map write) ++ .rightBracket :: rest) =
      .ok (read.reverse ++ as, rest) := by
  -- Something was read before, so every element that is left must stand behind a comma.
  have hempty : read.isEmpty = false := by simpa using hne
  induction as generalizing read count with
  | nil =>
    cases count with
    | zero => simp at hcount
    | succ count => simp [readElements, behindCommas, nextElement]
  | cons a as ih =>
    cases count with
    | zero => simp at hcount
    | succ count =>
      have hmore := nextElement_comma (helement a (by simp))
        (behindCommas (as.map write) ++ .rightBracket :: rest)
      have hrest := ih (fun b hb => hread b (by simp [hb])) (fun b hb => helement b (by simp [hb]))
        (List.cons_ne_nil a read) (by simpa using hcount) rfl
      simp only [List.map_cons, behindCommas_cons, List.cons_append, List.append_assoc,
        readElements, hempty, hmore, ok_bind, if_true, hread a (by simp) _, hrest]
      simp

/-- A list is read element by element. -/
theorem reads_readList {as : List α} (hread : ∀ a ∈ as, Reads r (write a) a)
    (helement : ∀ a ∈ as, IsElement (write a)) :
    Reads (readList r) (list (as.map write)) as := fun rest => by
  cases as with
  | nil => simp [list, separated, readList, readElements, nextElement]
  | cons a as =>
    have hlength := length_le_behindCommas (as.map write)
    have hfirst := nextElement_first (helement a (by simp))
      (behindCommas (as.map write) ++ .rightBracket :: rest)
    have hrest := fun count hcount => @readElements_behindCommas _ r write as
      (fun b hb => hread b (by simp [hb])) (fun b hb => helement b (by simp [hb]))
      [a] (by simp) count hcount rest
    simp only [list, List.map_cons, separated_cons, List.cons_append, List.append_assoc,
      List.nil_append, readList, readElements, List.isEmpty_nil, hfirst, ok_bind, if_true,
      hread a (by simp) _]
    -- The reader may go on for as many elements as there are tokens, and each has its comma.
    rw [hrest _ (by simp at hlength ⊢; omega)]
    simp

theorem reads_bytes (bs : Bytes) : Reads (readList readByte) (bytes bs) bs :=
  reads_readList (fun b _ => reads_readByte b) fun _ _ =>
    ⟨_, [], rfl, by simp, by simp⟩

end

end PaxosLog.Wire
