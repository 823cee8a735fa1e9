import PaxosLog.Proofs.Wire.Extent

/-!
# What is refused inside is refused

A reader that meets a mistake stops there: `Fails r ts e` says that the reader `r` fails with `e` on
the tokens `ts`, whatever stands behind. What stands before the mistake was read in earlier rounds,
and does not change its outcome. So a mistake in an element is one of its list, and one in a field,
in the content of a variant, or in the key or the value of an entry, is one of the record, the
variant and the log.

* `natural_refuses`: a numeral that is not plain, or whose number is too large, is a mistake.
* `fails_readList`, `fails_record`, `fails_variant`, `fails_entries`: it comes to the outside.
-/

namespace PaxosLog.Wire

open Json

/-- The reader fails with this mistake on these tokens, whatever stands behind. -/
def Fails {α : Type} (r : Reader α) (ts : List Token) (e : DecodeError) : Prop :=
  ∀ rest, r (ts ++ rest) = .error e

/-- Behind a mistake nothing is read. -/
@[simp] theorem error_bind {α β : Type} (e : DecodeError) (f : α → Except DecodeError β) :
    (Except.error e >>= f) = .error e := rfl

/-! ## Numerals -/

/-- No other numeral than a plain one of a number below the limit is taken. -/
theorem natural_refuses {n : Numeral} {limit : Nat} (hn : ¬ n.Below limit) (shape : Shape) :
    ∃ e, natural shape limit n.toNumber? = .error e := by
  cases hnumber : n.toNumber? with
  | none => exact ⟨_, rfl⟩
  | some number =>
    cases number with
    | natural m =>
      obtain ⟨hbelow, hm⟩ := Numeral.toNumber?_eq_natural.mp hnumber
      have hge : ¬ m.toNat < limit := fun hlt =>
        hn ⟨hbelow.unsigned, hbelow.noPoint, hbelow.noExponent, hm ▸ hlt⟩
      exact ⟨_, if_neg hge⟩
    | negative m => exact ⟨_, rfl⟩
    | real bits => exact ⟨_, rfl⟩

section

variable {α β : Type} {r : Reader α} {ts : List Token} {e : DecodeError}

theorem Fails.map (h : Fails r ts e) (f : α → β) :
    Fails (fun ts => (r ts).map fun (a, rest) => (f a, rest)) ts e := fun rest => by
  simp [h rest, Except.map]

theorem Fails.option (h : Fails r ts e) (hnull : ts.head? ≠ some .null) (hts : ts ≠ []) :
    Fails (readOption r) ts e := fun rest => by
  obtain ⟨t, us, rfl⟩ := List.exists_cons_of_ne_nil hts
  have hne : t ≠ .null := fun he => hnull (by simp [he])
  have hr : r (t :: (us ++ rest)) = .error e := h rest
  simp [readOption, hne, hr, Except.map]

theorem fails_readNatural {n : Numeral} {shape : Shape} {limit : Nat}
    (h : natural shape limit n.toNumber? = .error e) :
    Fails (readNatural shape limit) [.number n] e := fun rest => by
  simp [readNatural, h, Except.map]

/-! ## Lists -/

/-- Of several parts all but the first one stand behind a comma. -/
theorem behindCommas_eq {parts : List (List Token)} (h : parts ≠ []) :
    behindCommas parts = .comma :: separated parts := by
  obtain ⟨p, ps, rfl⟩ := List.exists_cons_of_ne_nil h
  rw [behindCommas_cons, separated_cons]

/-- The elements before the mistake are read first. -/
theorem fails_readElements {write : α → List Token} {as : List α}
    (hread : ∀ a ∈ as, Reads r (write a) a) (helement : ∀ a ∈ as, IsElement (write a))
    (hts : IsElement ts) (h : Fails r ts e) (post : List (List Token)) (read : List α)
    {count : Nat} (hcount : as.length < count) (rest : List Token) :
    readElements r read count
      (lead read.isEmpty ++ (separated (as.map write ++ ts :: post) ++ rest)) = .error e := by
  induction as generalizing read count with
  | nil =>
    cases count with
    | zero => simp at hcount
    | succ count =>
      obtain ⟨t, us, rfl, hbracket, -⟩ := hts
      have hmore := h (behindCommas post ++ rest)
      simp only [List.cons_append] at hmore
      rw [readElements, nextElement_lead]
      · simp [separated_cons, hmore]
      · simp [separated_cons]
      · simp [separated_cons, hbracket]
  | cons a as ih =>
    cases count with
    | zero => simp at hcount
    | succ count =>
      obtain ⟨t, us, ha, hbracket, -⟩ := helement a (.head _)
      have hrest := ih (fun b hb => hread b (.tail _ hb)) (fun b hb => helement b (.tail _ hb))
        (a :: read) (by simpa using hcount)
      have hvalue := hread a (.head _)
        (.comma :: (separated (as.map write ++ ts :: post) ++ rest))
      simp only [List.isEmpty_cons, lead, Bool.false_eq_true, if_false, List.singleton_append]
        at hrest
      rw [readElements, List.map_cons, List.cons_append, separated_cons,
        behindCommas_eq (by simp), List.append_assoc, List.cons_append, nextElement_lead]
      · simp only [ok_bind, if_true, hvalue, hrest]
      · simp [ha]
      · simp [ha, hbracket]

/-- A mistake in an element is one of the list. -/
theorem fails_readList {write : α → List Token} {as : List α}
    (hread : ∀ a ∈ as, Reads r (write a) a) (helement : ∀ a ∈ as, IsElement (write a))
    (hts : IsElement ts) (h : Fails r ts e) (post : List (List Token)) :
    Fails (readList r) (list (as.map write ++ ts :: post)) e := fun rest => by
  have hlength := length_le_separated (as.map write ++ ts :: post)
  have hrounds := fun count hcount => @fails_readElements _ _ _ _ write as hread helement hts h post
    [] count hcount (.rightBracket :: rest)
  simp only [List.length_append, List.length_map, List.length_cons] at hlength
  simp only [list, List.cons_append, List.append_assoc, List.nil_append, readList]
  exact hrounds _ (by simp only [List.length_append, List.length_cons]; omega)

end

/-! ## Records -/

theorem nextKey_lead (first : Bool) (body : List UInt8) (rest : List Token) :
    nextKey first (lead first ++ .string body :: rest) = .ok (some (body, false), rest) := by
  cases first <;> simp [nextKey, lead]

section

variable {σ : Type} {r : Record σ} {s s' : σ} {e : DecodeError} {body : List UInt8}
  {text : List Char} {value : List Token} {members : List (List Token)}

/-- The members before the mistake are read first. -/
theorem fails_readFields (h : Fills r s members s') (hname : keyName (body, false) = .ok text)
    (hfield : Fails (r.readField text s') (.colon :: value) e) (post : List (List Token))
    (first : Bool) {count : Nat} (hcount : members.length < count) (rest : List Token) :
    r.readFields first s count
      (lead first ++ (separated (members ++ member (.string body) value :: post) ++ rest)) =
        .error e := by
  induction h generalizing first count with
  | nil s =>
    cases count with
    | zero => simp at hcount
    | succ count =>
      have hmore := hfield (behindCommas post ++ rest)
      simp only [List.cons_append] at hmore
      simp only [List.nil_append, separated_cons, member, List.cons_append, List.append_assoc,
        Record.readFields, nextKey_lead, ok_bind, hname, hmore, error_bind]
  | @cons s t u body' text' value' members hname' hread _ ih =>
    cases count with
    | zero => simp at hcount
    | succ count =>
      have hrest := ih hfield false (by simpa using hcount)
      have hmember := hread
        (.comma :: (separated (members ++ member (.string body) value :: post) ++ rest))
      simp only [lead, Bool.false_eq_true, if_false, List.cons_append, List.nil_append]
        at hrest hmember
      have hfirst : member (.string body') value' = .string body' :: .colon :: value' := rfl
      rw [List.cons_append, separated_cons, behindCommas_eq (by simp), hfirst]
      simp only [List.cons_append, List.append_assoc, Record.readFields, nextKey_lead, ok_bind,
        hname', hmember, hrest]

theorem fails_readCells (h : Fills r s members s') (hname : keyName (body, false) = .ok text)
    (hfield : Fails (r.readField text s') (.colon :: value) e) (post : List (List Token)) :
    Fails (r.readCells s) (object (members ++ member (.string body) value :: post)) e :=
  fun rest => by
    have hlength := length_le_separated (members ++ member (.string body) value :: post)
    have hrounds := fun count hcount => @fails_readFields _ r s s' e body text value members h hname
      hfield post true count hcount (.rightBrace :: rest)
    simp only [List.length_append, List.length_cons] at hlength
    simp only [object, Record.readCells, List.cons_append, List.append_assoc, List.nil_append]
    exact hrounds _ (by simp only [List.length_append, List.length_cons]; omega)

/-- A mistake in a field is one of the record. -/
theorem fails_record {α β : Type} {f : RecordField β} {get : σ → Option β} {put : β → σ → σ}
    {build : σ → Option α} (hnames : AreNames (r.cells.map (·.name)))
    (hmem : f.cell get put ∈ r.cells) (hfills : Fills r s members s') (hunset : get s' = none)
    (h : Fails f.read value e) (post : List (List Token)) :
    Fails (r.read s build) (object (members ++ member (name f.name) value :: post)) e := by
  have hfind : (r.cells.find? fun c => c.name.toList = f.name.toList) = some (f.cell get put) :=
    hnames.find hmem rfl
  have hname := keyName_ascii (hnames.2 f.name (List.mem_map.mpr ⟨_, hmem, rfl⟩))
  have hfield : Fails (r.readField f.name.toList s') (.colon :: value) e := fun rest => by
    simp [Record.readField, hfind, RecordField.cell, hunset, readColon, h rest, Except.map]
  intro rest
  rw [Record.read, name, fails_readCells hfills hname hfield post rest, error_bind]

end

theorem fails_readRecord3 {α β γ δ : Type} {f : RecordField α} {g : RecordField β}
    {h : RecordField γ} {as bs cs : List Token} {a : α} {b : β} {e : DecodeError} (title : String)
    {build : α → β → γ → δ} (hnames : AreNames [f.name, g.name, h.name]) (hf : Reads f.read as a)
    (hg : Reads g.read bs b) (hh : Fails h.read cs e) :
    Fails (readRecord3 title f g h build)
      (object [member (name f.name) as, member (name g.name) bs, member (name h.name) cs]) e := by
  have hlast : [member (name f.name) as, member (name g.name) bs, member (name h.name) cs] =
      [member (name f.name) as, member (name g.name) bs] ++ [member (name h.name) cs] := rfl
  rw [hlast]
  apply fails_record
  · exact hnames
  · exact .tail _ (.tail _ (.head _))
  · exact .set hnames (.head _) rfl hf <| .set hnames (.tail _ (.head _)) rfl hg <| .nil _
  · rfl
  · exact hh

/-! ## Variants -/

/-- A mistake in the content is one of the variant. -/
theorem fails_variant {α : Type} {variants : List (Variant α)} {v : Variant α} {key : String}
    {content : List Token} {e : DecodeError} (hnames : AreNames (variants.map (·.name)))
    (hmem : v ∈ variants) (hkey : v.name = key) (h : Fails v.read content e) :
    Fails (readVariant variants) (variant key content) e := fun rest => by
  have hcontent := h (.rightBrace :: rest)
  simp [variant, object, separated, member, name, readVariant, keyName_variant hnames hmem hkey,
    findVariant_name hnames hmem hkey, readColon, hcontent]

/-! ## Logs -/

section

variable {α : Type} {r : Reader α} {body : List UInt8} {value : List Token} {e : DecodeError}
  {pairs : List (Slot × α)} {members : List (List Token)}

/-- A mistake in the key or the value of an entry. -/
def FailsEntry (r : Reader α) (body : List UInt8) (value : List Token) (e : DecodeError) : Prop :=
  keyWord (body, false) = .error e ∨ ∃ s, keyWord (body, false) = .ok s ∧ Fails r value e

/-- The entries before the mistake are read first. -/
theorem fails_readEntries (h : List.Forall₂ (ReadsEntry r) pairs members)
    (hentry : FailsEntry r body value e) (post : List (List Token)) (m : SlotMap α) (first : Bool)
    {count : Nat} (hcount : members.length < count) (rest : List Token) :
    readEntries r first m count
      (lead first ++ (separated (members ++ member (.string body) value :: post) ++ rest)) =
        .error e := by
  induction h generalizing m first count with
  | nil =>
    cases count with
    | zero => simp at hcount
    | succ count =>
      simp only [List.nil_append, separated_cons, member, List.cons_append, List.append_assoc,
        readEntries, nextKey_lead, ok_bind]
      obtain hkey | ⟨s, hkey, hvalue⟩ := hentry
      · rw [hkey, error_bind]
      · have hmore := hvalue (behindCommas post ++ rest)
        simp only [hkey, ok_bind, readColon, hmore, error_bind]
  | @cons p ts pairs members hread _ ih =>
    cases count with
    | zero => simp at hcount
    | succ count =>
      obtain ⟨value', hvalue, rfl⟩ := hread
      have hrest := ih (m.insert p.1 p.2) false (by simpa using hcount)
      have hmember := hvalue
        (.comma :: (separated (members ++ member (.string body) value :: post) ++ rest))
      have hfirst : member (slotKey p.1) value' =
        .string (Decimal.bytes p.1.toNat) :: .colon :: value' := rfl
      simp only [lead, Bool.false_eq_true, if_false, List.cons_append, List.nil_append] at hrest
      rw [List.cons_append, separated_cons, behindCommas_eq (by simp), hfirst]
      simp only [List.cons_append, List.append_assoc, readEntries, nextKey_lead, ok_bind,
        keyWord_slotKey, readColon, hmember, hrest]

/-- A mistake in an entry is one of the log. -/
theorem fails_entries [Wire α] (h : List.Forall₂ (ReadsEntry read) pairs members)
    (hentry : FailsEntry (read : Reader α) body value e) (post : List (List Token)) :
    Fails (read : Reader (SlotMap α)) (object (members ++ member (.string body) value :: post)) e :=
  fun rest => by
    have hlength := length_le_separated (members ++ member (.string body) value :: post)
    have hrounds := fun count hcount => @fails_readEntries α read body value e pairs members h
      hentry post ∅ true count hcount (.rightBrace :: rest)
    simp only [List.length_append, List.length_cons] at hlength
    simp only [object, List.cons_append, List.append_assoc, List.nil_append, read]
    exact hrounds _ (by simp only [List.length_append, List.length_cons]; omega)

end

end PaxosLog.Wire
