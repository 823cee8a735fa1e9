import Mathlib.Data.List.Forall2
import PaxosLog.Proofs.Wire.Parts

/-!
# Records, variants and logs

An object is read member by member. For a record, `Fills` says how the members of an object change
the fields that were read so far, one member after the other, and a record whose members fill all
of its fields is read back (`reads_record`); the readers of two, three and four fields follow. A
variant is read back from its name and its content, and a log from its entries, whose keys are the
slots as numerals.
-/

namespace PaxosLog.Wire

open Json

/-! ## Members of an object -/

section

variable {σ : Type} {r : Record σ}

/-- Reading these members one after the other takes the fields of a record from one state to
another. -/
inductive Fills (r : Record σ) : σ → List (List Token) → σ → Prop
  | nil (s : σ) : Fills r s [] s
  | cons {s s' s'' : σ} {body : List UInt8} {text : List Char} {value : List Token}
      {members : List (List Token)} (hname : keyName (body, false) = .ok text)
      (hread : Reads (r.readField text s) (.colon :: value) s') (h : Fills r s' members s'') :
      Fills r s (member (.string body) value :: members) s''

/-- Reads the members behind the first one. -/
theorem readFields_behindCommas {s s' s'' : σ} {members : List (List Token)}
    (h : Fills r s members s') (hfinish : Record.finish r.cells s' = .ok s'') {count : Nat}
    (hcount : members.length < count) (rest : List Token) :
    r.readFields false s count (behindCommas members ++ .rightBrace :: rest) = .ok (s'', rest) := by
  induction h generalizing count with
  | nil s =>
    cases count with
    | zero => simp at hcount
    | succ count =>
      simp [Record.readFields, behindCommas, nextKey, hfinish]
  | @cons s t u body text value members hname hread _ ih =>
    cases count with
    | zero => simp at hcount
    | succ count =>
      have hfield := hread (behindCommas members ++ .rightBrace :: rest)
      have hrest := ih hfinish (by simpa using hcount)
      simp only [List.cons_append] at hfield
      simp only [behindCommas_cons, member, List.cons_append, List.append_assoc,
        Record.readFields, nextKey, ok_bind, Bool.false_eq_true, if_false, hname, hfield, hrest]

/-- A record whose members fill its fields is read back. -/
theorem reads_readCells {s s' s'' : σ} {members : List (List Token)} (h : Fills r s members s')
    (hfinish : Record.finish r.cells s' = .ok s'') :
    Reads (r.readCells s) (object members) s'' := fun rest => by
  cases h with
  | nil =>
    simp [object, separated, Record.readCells, Record.readFields, nextKey, hfinish]
  | @cons _ t _ body text value members hname hread h =>
    have hlength := length_le_behindCommas members
    have hfield := hread (behindCommas members ++ .rightBrace :: rest)
    have hrest := fun count hcount =>
      @readFields_behindCommas _ r t s' s'' members h hfinish count hcount rest
    simp only [List.cons_append] at hfield
    simp only [object, separated_cons, member, List.cons_append, List.append_assoc,
      List.nil_append, Record.readCells, Record.readFields, nextKey, ok_bind, if_true,
      hname, hfield]
    exact hrest _ (by simp; omega)

theorem reads_record {α : Type} {s s' s'' : σ} {members : List (List Token)}
    {build : σ → Option α} {a : α} (h : Fills r s members s')
    (hfinish : Record.finish r.cells s' = .ok s'') (hbuild : build s'' = some a) :
    Reads (r.read s build) (object members) a := fun rest => by
  simp [Record.read, reads_readCells h hfinish rest, hbuild]

/-- A member with the name of a field that was not read before sets the field. -/
theorem Fills.set {α : Type} {f : RecordField α} {get : σ → Option α} {put : α → σ → σ} {s s' : σ}
    {value : List Token} {a : α} {members : List (List Token)}
    (hnames : AreNames (r.cells.map (·.name))) (hmem : f.cell get put ∈ r.cells)
    (hunset : get s = none) (hread : Reads f.read value a) (h : Fills r (put a s) members s') :
    Fills r s (member (name f.name) value :: members) s' := by
  refine .cons (keyName_ascii (hnames.2 _ (List.mem_map.mpr ⟨_, hmem, rfl⟩))) (fun rest => ?_) h
  have hfind : (r.cells.find? fun c => c.name.toList = f.name.toList) = some (f.cell get put) :=
    hnames.find hmem rfl
  simp [Record.readField, hfind, RecordField.cell, hunset, readColon, hread rest, Except.map]

end

/-! ## Records -/

section

variable {α β γ δ ε : Type} {f : RecordField α} {g : RecordField β} {h : RecordField γ}
  {i : RecordField δ} {as bs cs ds : List Token} {a : α} {b : β} {c : γ} {d : δ}

theorem reads_readRecord2 (title : String) {build : α → β → ε} (hnames : AreNames [f.name, g.name])
    (hf : Reads f.read as a) (hg : Reads g.read bs b) :
    Reads (readRecord2 title f g build)
      (object [member (name f.name) as, member (name g.name) bs]) (build a b) := by
  apply reads_record
  · exact .set hnames (.head _) rfl hf <| .set hnames (.tail _ (.head _)) rfl hg <| .nil _
  · rfl
  · rfl

theorem reads_readRecord3 (title : String) {build : α → β → γ → ε}
    (hnames : AreNames [f.name, g.name, h.name]) (hf : Reads f.read as a) (hg : Reads g.read bs b)
    (hh : Reads h.read cs c) :
    Reads (readRecord3 title f g h build)
      (object [member (name f.name) as, member (name g.name) bs, member (name h.name) cs])
      (build a b c) := by
  apply reads_record
  · exact .set hnames (.head _) rfl hf <| .set hnames (.tail _ (.head _)) rfl hg <|
      .set hnames (.tail _ (.tail _ (.head _))) rfl hh <| .nil _
  · rfl
  · rfl

theorem reads_readLenient4 (title : String) {build : α → β → γ → δ → ε}
    (hnames : AreNames [f.name, g.name, h.name, i.name]) (hf : Reads f.read as a)
    (hg : Reads g.read bs b) (hh : Reads h.read cs c) (hi : Reads i.read ds d) :
    Reads (readLenient4 title f g h i build)
      (object [member (name f.name) as, member (name g.name) bs, member (name h.name) cs,
        member (name i.name) ds])
      (build a b c d) := by
  apply reads_record
  · exact .set hnames (.head _) rfl hf <| .set hnames (.tail _ (.head _)) rfl hg <|
      .set hnames (.tail _ (.tail _ (.head _))) rfl hh <|
      .set hnames (.tail _ (.tail _ (.tail _ (.head _)))) rfl hi <| .nil _
  · rfl
  · rfl

end

/-! ## Variants -/

section

variable {α : Type} {variants : List (Variant α)} {v : Variant α} {a : α}

theorem findVariant_name (hnames : AreNames (variants.map (·.name))) (hmem : v ∈ variants)
    {key : String} (hkey : v.name = key) : findVariant variants key.toList = .ok v := by
  have hfind : (variants.find? fun w => w.name.toList = key.toList) = some v :=
    hnames.find hmem hkey
  simp [findVariant, hfind]

theorem keyName_variant (hnames : AreNames (variants.map (·.name))) (hmem : v ∈ variants)
    {key : String} (hkey : v.name = key) : keyName (ascii key, false) = .ok key.toList :=
  keyName_ascii (hnames.2 key (List.mem_map.mpr ⟨v, hmem, hkey⟩))

/-- A variant with content is read back from its name and its content. -/
theorem reads_variant {key : String} {content : List Token}
    (hnames : AreNames (variants.map (·.name))) (hmem : v ∈ variants) (hkey : v.name = key)
    (hread : Reads v.read content a) :
    Reads (readVariant variants) (variant key content) a := fun rest => by
  have hcontent := hread (.rightBrace :: rest)
  simp [variant, object, separated, member, name, readVariant, keyName_variant hnames hmem hkey,
    findVariant_name hnames hmem hkey, readColon, hcontent]

/-- A variant without content is read back from its bare name. -/
theorem reads_bare {key : String} (hnames : AreNames (variants.map (·.name))) (hmem : v ∈ variants)
    (hkey : v.name = key) (halone : v.alone = some a) :
    Reads (readVariant variants) [name key] a := fun rest => by
  simp [name, readVariant, keyName_variant hnames hmem hkey, findVariant_name hnames hmem hkey,
    halone]

end

/-! ## Logs -/

theorem isBody_digits (n : Nat) : IsBody (Decimal.bytes n) := by
  refine isBody_of_plain fun b hb => ?_
  obtain ⟨d, -, rfl⟩ := List.mem_map.mp hb
  have hplain : ∀ d : Digit, isPlain (Decimal.ascii d) := by decide
  exact hplain d

/-- The key of a slot is read as the slot. -/
theorem keyWord_slotKey (s : Slot) : keyWord (Decimal.bytes s.toNat, false) = .ok s := by
  have hscan := Numeral.scan?_bytes (Numeral.ofNat_wellFormed s.toNat) Numeral.ends_nil
  rw [Numeral.bytes_ofNat, List.append_nil] at hscan
  simp [keyWord, hscan, natural, s.toNat_lt]

section

variable {α : Type} {r : Reader α}

/-- The member of a log that holds the value of a slot. -/
def ReadsEntry (r : Reader α) (p : Slot × α) (ts : List Token) : Prop :=
  ∃ value, Reads r value p.2 ∧ ts = member (slotKey p.1) value

/-- The pairs put into a map, one after the other. -/
def insertAll (m : SlotMap α) (pairs : List (Slot × α)) : SlotMap α :=
  pairs.foldl (fun m p => m.insert p.1 p.2) m

/-- Reads the entries behind the first one. -/
theorem readEntries_behindCommas {pairs : List (Slot × α)} {members : List (List Token)}
    (h : List.Forall₂ (ReadsEntry r) pairs members) (m : SlotMap α) {count : Nat}
    (hcount : members.length < count) (rest : List Token) :
    readEntries r false m count (behindCommas members ++ .rightBrace :: rest) =
      .ok (insertAll m pairs, rest) := by
  induction h generalizing m count with
  | nil =>
    cases count with
    | zero => simp at hcount
    | succ count =>
      simp [readEntries, insertAll, behindCommas, nextKey]
  | @cons p ts pairs members hentry _ ih =>
    cases count with
    | zero => simp at hcount
    | succ count =>
      obtain ⟨value, hread, rfl⟩ := hentry
      have hvalue := hread (behindCommas members ++ .rightBrace :: rest)
      have hrest := ih (m.insert p.1 p.2) (by simpa using hcount)
      simp only [behindCommas_cons, member, slotKey, List.cons_append, List.append_assoc,
        readEntries, nextKey, ok_bind, Bool.false_eq_true, if_false, keyWord_slotKey, readColon,
        hvalue, hrest]
      rfl

theorem readEntries_separated {pairs : List (Slot × α)} {members : List (List Token)}
    (h : List.Forall₂ (ReadsEntry r) pairs members) (m : SlotMap α) {count : Nat}
    (hcount : members.length < count) (rest : List Token) :
    readEntries r true m count (separated members ++ .rightBrace :: rest) =
      .ok (insertAll m pairs, rest) := by
  cases count with
  | zero => simp at hcount
  | succ count =>
    cases h with
    | nil =>
      simp [readEntries, insertAll, separated, nextKey]
    | @cons p ts pairs members hentry hentries =>
      obtain ⟨value, hread, rfl⟩ := hentry
      have hvalue := hread (behindCommas members ++ .rightBrace :: rest)
      have hrest := readEntries_behindCommas hentries (m.insert p.1 p.2) (by simpa using hcount)
        rest
      simp only [separated_cons, member, slotKey, List.cons_append, List.append_assoc, readEntries,
        nextKey, ok_bind, if_true, keyWord_slotKey, readColon, hvalue, hrest]
      rfl

/-- A log is read entry by entry. -/
theorem reads_entries [Wire α] {pairs : List (Slot × α)} {members : List (List Token)}
    (h : List.Forall₂ (ReadsEntry read) pairs members) :
    Reads read (object members) (SlotMap.ofPairs pairs) := fun rest => by
  have hlength := length_le_separated members
  have hentries := fun count hcount =>
    @readEntries_separated α read pairs members h ∅ count hcount rest
  simp only [object, List.cons_append, List.append_assoc, List.nil_append, read]
  rw [hentries _ (by rw [List.length_append]; simp only [List.length_cons]; omega)]
  rfl

/-- The entries of a map, put into an empty one in any order, make the map. -/
theorem ofPairs_of_perm {m : SlotMap α} {pairs : List (Slot × α)} (h : pairs.Perm m.toList) :
    SlotMap.ofPairs pairs = m := by
  have hmany : SlotMap.ofPairs pairs = Std.ExtTreeMap.ofList pairs compare := by
    rw [Std.ExtTreeMap.ofList_eq_insertMany_empty, Std.ExtTreeMap.insertMany_list_eq_foldl]
    rfl
  have hdistinct : pairs.Pairwise fun p q => ¬ compare p.1 q.1 = .eq :=
    Std.ExtTreeMap.distinct_keys_toList.perm h.symm fun hne heq =>
      hne (Std.OrientedCmp.eq_symm heq)
  rw [hmany]
  refine Std.ExtTreeMap.ext_getElem? fun s => ?_
  cases hs : m[s]? with
  | some a =>
    exact Std.ExtTreeMap.getElem?_ofList_of_mem (by simp) hdistinct
      (h.mem_iff.mpr (Std.ExtTreeMap.mem_toList_iff_getElem?_eq_some.mpr hs))
  | none =>
    have hnone : s ∉ pairs.map Prod.fst := by
      rw [(h.map Prod.fst).mem_iff, Std.ExtTreeMap.map_fst_toList_eq_keys,
        Std.ExtTreeMap.mem_keys, ← Std.ExtTreeMap.isSome_getElem?_iff_mem, hs]
      simp
    exact Std.ExtTreeMap.getElem?_ofList_of_contains_eq_false (by simpa using hnone)

/-- A log is read back if its entries are. -/
theorem reads_log [Wire α] (hread : ∀ a : α, Reads read (tokens a) a) (m : SlotMap α) :
    Reads read (tokens m) m := by
  have hentries : List.Forall₂ (ReadsEntry read) m.toList
      (m.toList.map fun p => member (slotKey p.1) (tokens p.2)) :=
    List.forall₂_map_right_iff.mpr <| List.forall₂_same.mpr fun p _ =>
      ⟨tokens p.2, hread p.2, rfl⟩
  have hlog := reads_entries hentries
  rwa [ofPairs_of_perm (.refl _)] at hlog

theorem neat_log [Wire α] (hneat : ∀ a : α, Neat (tokens a)) (m : SlotMap α) : Neat (tokens m) := by
  refine neat_object (List.forall_iff_forall_mem.mpr fun e he => ?_)
  obtain ⟨p, -, rfl⟩ := List.mem_map.mp he
  exact neat_member (isBody_digits p.1.toNat) (hneat p.2)

end

end PaxosLog.Wire
