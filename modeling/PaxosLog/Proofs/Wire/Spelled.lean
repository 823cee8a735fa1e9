import Mathlib.Data.List.Nodup
import Mathlib.Data.List.Pairwise
import PaxosLog.Proofs.Wire.Records
import PaxosLog.Proofs.Wire.Values

/-!
# Spellings of a value

A value has more texts than the one that it is written as. `Legible r spellings a` says that the
reader `r` takes the value `a` off every one of its spellings. A record may be spelled as an object
with its fields in any order and unknown ones between them, or as the list of its fields
(`SpelledRecord`), and a log as an object with its keys in any order, in which an entry may be
preceded by others for the same key (`SpelledLog`).

A member of an object sets one cell of the state that is read into. Cells can be set in any order
and setting one again changes nothing (`Laid`), so that whatever members are left, setting all the
cells comes to the same end: this is what the induction on the members keeps (`fills_of_members`).
-/

namespace PaxosLog.Wire

open Json

/-- The spellings of a value: its reader takes the value off every one of them. -/
structure Legible {α : Type} (r : Reader α) (spelled : List Token → Prop) (a : α) : Prop where
  neat : ∀ {ts}, spelled ts → Neat ts
  element : ∀ {ts}, spelled ts → IsElement ts
  reads : ∀ {ts}, spelled ts → Reads r ts a

/-! ## Spellings of records -/

/-- A field of a record, as it is written. -/
structure Part where
  name : String
  /-- The spellings of its value. -/
  spelled : List Token → Prop
  /-- An object may do without the field. -/
  omissible : Prop

/-- The members of an object that is to hold the fields `left`, in any order. Between them there may
be members of other names than `names`, with any values. A name is a text: what stands between its
quotes are characters. -/
inductive Members (names : List String) : List Part → List (List Token) → Prop
  | nil {left : List Part} (h : ∀ p ∈ left, p.omissible) : Members names left []
  | unknown {left : List Part} {body : List UInt8} {text : List Char} {value : List Token}
      {members : List (List Token)} (hbody : IsBody body) (htext : Text.decode body = some text)
      (hnew : ∀ n ∈ names, n.toList ≠ text) (hvalue : IsValue value)
      (h : Members names left members) :
      Members names left (member (.string body) value :: members)
  | field {pre post : List Part} {p : Part} {value : List Token} {members : List (List Token)}
      (hvalue : p.spelled value) (h : Members names (pre ++ post) members) :
      Members names (pre ++ p :: post) (member (name p.name) value :: members)

/-- A record is spelled as an object of its fields, or as the list of them in their own order. -/
def SpelledRecord (parts : List Part) (ts : List Token) : Prop :=
  (∃ members, Members (parts.map (·.name)) parts members ∧ ts = object members) ∨
    ∃ values, List.Forall₂ Part.spelled parts values ∧ ts = list values

theorem SpelledRecord.element {parts : List Part} {ts : List Token} (h : SpelledRecord parts ts) :
    IsElement ts := by
  rcases h with ⟨members, -, rfl⟩ | ⟨values, -, rfl⟩
  · exact isElement_object members
  · exact isElement_list values

theorem Members.neat {names : List String} {left : List Part} {members : List (List Token)}
    (h : Members names left members)
    (hparts : ∀ p ∈ left, IsName p.name.toList ∧ ∀ value, p.spelled value → Neat value) :
    ∀ ts ∈ members, Neat ts := by
  induction h with
  | nil => simp
  | unknown hbody _ _ hvalue _ ih =>
    rintro ts (_ | ⟨_, hts⟩)
    · exact neat_member hbody hvalue.neat
    · exact ih hparts ts hts
  | field hvalue _ ih =>
    rintro ts (_ | ⟨_, hts⟩)
    · obtain ⟨hname, hneat⟩ := hparts _ List.mem_append_cons_self
      exact neat_field hname (hneat _ hvalue)
    · refine ih (fun p hp => hparts p ?_) ts hts
      rw [List.mem_append] at hp
      exact List.mem_append.mpr (hp.imp_right (.tail _))

theorem neat_values {parts : List Part} {values : List (List Token)}
    (h : List.Forall₂ Part.spelled parts values)
    (hparts : ∀ p ∈ parts, ∀ value, p.spelled value → Neat value) : ∀ v ∈ values, Neat v := by
  induction h with
  | nil => simp
  | cons hvalue _ ih =>
    rintro v (_ | ⟨_, hv⟩)
    · exact hparts _ (.head _) _ hvalue
    · exact ih (fun p hp => hparts p (.tail _ hp)) v hv

theorem SpelledRecord.neat {parts : List Part} {ts : List Token} (h : SpelledRecord parts ts)
    (hparts : ∀ p ∈ parts, IsName p.name.toList ∧ ∀ value, p.spelled value → Neat value) :
    Neat ts := by
  rcases h with ⟨members, hmembers, rfl⟩ | ⟨values, hvalues, rfl⟩
  · exact neat_object (List.forall_iff_forall_mem.mpr (hmembers.neat hparts))
  · exact neat_list (neat_values hvalues fun p hp => (hparts p hp).2)

/-! ## Cells and their values -/

section

variable {σ : Type}

/-- A cell of a record with the field that it is read from and the value that it is set to. -/
structure Place (σ : Type) where
  part : Part
  cell : Cell σ
  /-- Sets the cell to its value. -/
  set : σ → σ

/-- Setting one of two cells does not touch the other. -/
def Place.Apart (p q : Place σ) : Prop :=
  ∀ s, p.set (q.set s) = q.set (p.set s) ∧ p.cell.isSet (q.set s) = p.cell.isSet s ∧
    q.cell.isSet (p.set s) = q.cell.isSet s

/-- The cell is set to its value by every spelling of the field, once and for all. -/
structure Place.Lawful (p : Place σ) : Prop where
  named : p.cell.name = p.part.name
  legible : ∀ s, Legible (p.cell.read s) p.part.spelled (p.set s)
  absent : p.part.omissible → ∀ s, p.cell.fill s = some (p.set s)
  isSet : ∀ s, p.cell.isSet (p.set s) = true
  again : ∀ s, p.set (p.set s) = p.set s

/-- The cells of a record, each set by its own field. -/
structure Laid (r : Record σ) (places : List (Place σ)) : Prop where
  cells : r.cells = places.map (·.cell)
  names : AreNames (places.map (·.part.name))
  lawful : ∀ p ∈ places, p.Lawful
  apart : places.Pairwise Place.Apart

/-- Sets all cells. -/
def setAll (places : List (Place σ)) (s : σ) : σ := places.foldl (fun s p => p.set s) s

/-- Setting a cell before all of them makes no difference. -/
theorem setAll_set {places : List (Place σ)} (hapart : places.Pairwise Place.Apart)
    (hlawful : ∀ p ∈ places, p.Lawful) {q : Place σ} (hq : q ∈ places) (s : σ) :
    setAll places (q.set s) = setAll places s := by
  induction places generalizing s with
  | nil => cases hq
  | cons p ps ih =>
    obtain ⟨hp, hps⟩ := List.pairwise_cons.mp hapart
    simp only [setAll, List.foldl_cons]
    rcases List.mem_cons.mp hq with rfl | hq
    · rw [(hlawful q (.head _)).again]
    · rw [(hp q hq s).1]
      exact ih hps (fun p hp => hlawful p (.tail _ hp)) hq (p.set s)

/-- Fills the cells that were not set. -/
theorem finish_places {places : List (Place σ)} (hapart : places.Pairwise Place.Apart) {s : σ}
    (hset : ∀ p ∈ places, p.cell.isSet s = true → p.set s = s)
    (hunset : ∀ p ∈ places, p.cell.isSet s = false → ∀ s, p.cell.fill s = some (p.set s)) :
    Record.finish (places.map (·.cell)) s = .ok (setAll places s) := by
  induction places generalizing s with
  | nil => rfl
  | cons p ps ih =>
    obtain ⟨hp, hps⟩ := List.pairwise_cons.mp hapart
    cases h : p.cell.isSet s with
    | true =>
      have hrest := ih hps (fun q hq => hset q (.tail _ hq)) fun q hq => hunset q (.tail _ hq)
      simp only [Record.finish, setAll] at hrest ⊢
      simp [h, hset p (.head _) h, hrest]
    | false =>
      have hrest : Record.finish (ps.map (·.cell)) (p.set s) = .ok (setAll ps (p.set s)) := by
        refine ih hps (fun q hq hqset => ?_) fun q hq hqset => ?_
        · obtain ⟨hcomm, -, hisSet⟩ := hp q hq s
          rw [← hcomm, hset q (.tail _ hq) (hisSet ▸ hqset)]
        · exact hunset q (.tail _ hq) ((hp q hq s).2.2 ▸ hqset)
      simp only [Record.finish, setAll] at hrest ⊢
      simp [h, hunset p (.head _) h, hrest]

/-! ## Reading records -/

variable {r : Record σ} {places : List (Place σ)}

/-- A member that is unknown is passed over. -/
theorem reads_unknown (hr : Laid r places) {text : List Char} {value : List Token}
    (hnew : ∀ n ∈ places.map (·.part.name), n.toList ≠ text) (hvalue : IsValue value) (s : σ) :
    Reads (r.readField text s) (.colon :: value) s := by
  intro rest
  have hfind : (r.cells.find? fun c => c.name.toList = text) = none := by
    rw [hr.cells, List.find?_eq_none]
    intro c hc
    obtain ⟨p, hp, rfl⟩ := List.mem_map.mp hc
    simpa [(hr.lawful p hp).named] using hnew _ (List.mem_map.mpr ⟨p, hp, rfl⟩)
  have hskip := reads_skipValue hvalue rest
  simp [Record.readField, hfind, readColon, hskip]

/-- A member with the name of a field sets its cell, if it was not set before. -/
theorem reads_known (hr : Laid r places) {p : Place σ} (hp : p ∈ places) {value : List Token}
    (hvalue : p.part.spelled value) {s : σ} (hunset : p.cell.isSet s = false) :
    Reads (r.readField p.part.name.toList s) (.colon :: value) (p.set s) := by
  intro rest
  have hnames : AreNames ((places.map (·.cell)).map (·.name)) := by
    have hmap : (places.map (·.cell)).map (·.name) = places.map (·.part.name) := by
      rw [List.map_map]
      exact List.map_congr_left fun p hp => (hr.lawful p hp).named
    rw [hmap]
    exact hr.names
  have hfind : (r.cells.find? fun c => c.name.toList = p.part.name.toList) = some p.cell := by
    rw [hr.cells]
    exact hnames.find (List.mem_map_of_mem hp) (hr.lawful p hp).named
  have hread := ((hr.lawful p hp).legible s).reads hvalue rest
  simp [Record.readField, hfind, hunset, readColon, hread]

theorem Laid.apart_of_ne (hr : Laid r places) {p q : Place σ} (hp : p ∈ places) (hq : q ∈ places)
    (hne : p ≠ q) : p.Apart q :=
  haveI : Std.Symm (Place.Apart (σ := σ)) := ⟨fun _ _ h s => ⟨(h s).1.symm, (h s).2.2, (h s).2.1⟩⟩
  hr.apart.forall hp hq hne

/-- Different cells are read from different fields. -/
theorem Laid.eq_of_part (hr : Laid r places) {p q : Place σ} (hp : p ∈ places) (hq : q ∈ places)
    (h : p.part = q.part) : p = q :=
  List.inj_on_of_nodup_map hr.names.1 hp hq (congrArg Part.name h)

/-- **Whatever members an object has, all cells are set in the end.** -/
theorem fills_of_members (hr : Laid r places) {left : List Part} {members : List (List Token)}
    (h : Members (places.map (·.part.name)) left members) {s : σ}
    (hnodup : left.Nodup) (hplaced : ∀ part ∈ left, ∃ p ∈ places, p.part = part)
    (hleft : ∀ p ∈ places, p.part ∈ left ↔ p.cell.isSet s = false)
    (hset : ∀ p ∈ places, p.cell.isSet s = true → p.set s = s) :
    ∃ s', Fills r s members s' ∧ Record.finish r.cells s' = .ok (setAll places s) := by
  induction h generalizing s with
  | nil homissible =>
    refine ⟨s, .nil s, ?_⟩
    rw [hr.cells]
    refine finish_places hr.apart hset fun p hp hunset => ?_
    exact (hr.lawful p hp).absent (homissible _ ((hleft p hp).mpr hunset))
  | unknown hbody htext hnew hvalue _ ih =>
    obtain ⟨s', hfills, hfinish⟩ := ih hnodup hplaced hleft hset
    exact ⟨s', .cons (by simp [keyName, htext]) (reads_unknown hr hnew hvalue s) hfills, hfinish⟩
  | @field pre post part value members hvalue _ ih =>
    obtain ⟨p, hp, rfl⟩ := hplaced part List.mem_append_cons_self
    have hunset := (hleft p hp).mp List.mem_append_cons_self
    obtain ⟨hgone, hnodup'⟩ := List.nodup_cons.mp (List.nodup_middle.mp hnodup)
    have hleft' : ∀ q ∈ places, q.part ∈ pre ++ post ↔ q.cell.isSet (p.set s) = false := by
      intro q hq
      by_cases hqp : q = p
      · subst hqp
        simp [hgone, (hr.lawful q hq).isSet s]
      · have hpart : q.part ≠ p.part := fun h => hqp (hr.eq_of_part hq hp h)
        rw [(hr.apart_of_ne hq hp hqp s).2.1, ← hleft q hq]
        simp [hpart]
    have hset' : ∀ q ∈ places, q.cell.isSet (p.set s) = true → q.set (p.set s) = p.set s := by
      intro q hq hqset
      by_cases hqp : q = p
      · subst hqp
        exact (hr.lawful q hq).again s
      · obtain ⟨hcomm, hisSet, -⟩ := hr.apart_of_ne hq hp hqp s
        rw [hcomm, hset q hq (hisSet ▸ hqset)]
    have hplaced' : ∀ part ∈ pre ++ post, ∃ p ∈ places, p.part = part := fun part hpart =>
      hplaced part (List.mem_append.mpr ((List.mem_append.mp hpart).imp_right (.tail _)))
    obtain ⟨s', hfills, hfinish⟩ := ih hnodup' hplaced' hleft' hset'
    refine ⟨s', .cons ?_ (reads_known hr hp hvalue hunset) hfills, ?_⟩
    · exact keyName_ascii (hr.names.2 _ (List.mem_map.mpr ⟨p, hp, rfl⟩))
    · rw [hfinish, setAll_set hr.apart hr.lawful hp]

/-- Reads the elements of a list behind the first one. -/
theorem readPlaces_behindCommas {ps : List (Place σ)} {values : List (List Token)}
    (hlawful : ∀ p ∈ ps, p.Lawful)
    (h : List.Forall₂ Part.spelled (ps.map (·.part)) values) (index : Nat) (s : σ)
    (rest : List Token) :
    r.readPlaces (index + 1) s (ps.map (·.cell)) (behindCommas values ++ .rightBracket :: rest) =
      .ok (setAll ps s, rest) := by
  induction ps generalizing values index s with
  | nil =>
    cases h
    simp [Record.readPlaces, behindCommas, setAll]
  | cons p ps ih =>
    obtain ⟨value, values, hvalue, hvalues, rfl⟩ := List.forall₂_cons_left_iff.mp h
    have hp := (hlawful p (.head _)).legible s
    have hnext := nextElement_comma (hp.element hvalue)
      (behindCommas values ++ .rightBracket :: rest)
    have hread := hp.reads hvalue (behindCommas values ++ .rightBracket :: rest)
    have hrest := ih (fun q hq => hlawful q (.tail _ hq)) hvalues (index + 1) (p.set s)
    simp only [List.map_cons, behindCommas_cons, List.cons_append, List.append_assoc,
      Record.readPlaces, Nat.add_eq_zero_iff, Nat.one_ne_zero, and_false, decide_false, hnext,
      ok_bind, if_true, hread, hrest]
    rfl

theorem readPlaces_separated {ps : List (Place σ)} {values : List (List Token)}
    (hlawful : ∀ p ∈ ps, p.Lawful)
    (h : List.Forall₂ Part.spelled (ps.map (·.part)) values) (s : σ) (rest : List Token) :
    r.readPlaces 0 s (ps.map (·.cell)) (separated values ++ .rightBracket :: rest) =
      .ok (setAll ps s, rest) := by
  cases ps with
  | nil =>
    cases h
    simp [Record.readPlaces, separated, setAll]
  | cons p ps =>
    obtain ⟨value, values, hvalue, hvalues, rfl⟩ := List.forall₂_cons_left_iff.mp h
    have hp := (hlawful p (.head _)).legible s
    have hnext := nextElement_first (hp.element hvalue)
      (behindCommas values ++ .rightBracket :: rest)
    have hread := hp.reads hvalue (behindCommas values ++ .rightBracket :: rest)
    have hrest := @readPlaces_behindCommas σ r ps values
      (fun q hq => hlawful q (.tail _ hq)) hvalues 0 (p.set s) rest
    simp only [List.map_cons, separated_cons, List.append_assoc, Record.readPlaces, decide_true,
      hnext, ok_bind, if_true, hread, hrest]
    rfl

/-- **A record is legible in all its spellings.** -/
theorem legible_record {α : Type} (hr : Laid r places) {s : σ} {build : σ → Option α} {a : α}
    (hempty : ∀ p ∈ places, p.cell.isSet s = false) (hbuild : build (setAll places s) = some a) :
    Legible (r.read s build) (SpelledRecord (places.map (·.part))) a where
  neat h := by
    refine h.neat fun part hpart => ?_
    obtain ⟨p, hp, rfl⟩ := List.mem_map.mp hpart
    have hname : IsName p.part.name.toList := hr.names.2 _ (List.mem_map.mpr ⟨p, hp, rfl⟩)
    exact ⟨hname, fun value => ((hr.lawful p hp).legible s).neat⟩
  element h := h.element
  reads h := by
    have hnames : (places.map (·.part)).map (·.name) = places.map (·.part.name) := List.map_map
    rcases h with ⟨members, hmembers, rfl⟩ | ⟨values, hvalues, rfl⟩
    · rw [hnames] at hmembers
      obtain ⟨s', hfills, hfinish⟩ := fills_of_members hr hmembers (s := s)
        (.of_map _ (hnames ▸ hr.names.1)) (fun part hpart => List.mem_map.mp hpart)
        (fun p hp => by simp [hempty p hp, List.mem_map_of_mem hp])
        (fun p hp hset => by simp [hempty p hp] at hset)
      exact reads_record hfills hfinish hbuild
    · intro rest
      have hplaces := @readPlaces_separated σ r places values hr.lawful hvalues s rest
      simp only [list, List.cons_append, List.append_assoc, List.nil_append, Record.read,
        Record.readCells, hr.cells, hplaces, ok_bind, hbuild]
      rfl

end

/-! ## Records of two and three fields -/

section

variable {σ α β γ δ : Type} {r : Reader α} {spelled : List Token → Prop} {a : α} {b : β} {c : γ}
  {f : RecordField α} {g : RecordField β} {h : RecordField γ} {p q u : Part}

theorem Legible.or {spelled' : List Token → Prop} (hr : Legible r spelled a)
    (hr' : Legible r spelled' a) : Legible r (fun ts => spelled ts ∨ spelled' ts) a where
  neat h := h.elim hr.neat hr'.neat
  element h := h.elim hr.element hr'.element
  reads h := h.elim hr.reads hr'.reads

theorem Legible.map (hr : Legible r spelled a) (f : α → β) :
    Legible (fun ts => (r ts).map fun (a, rest) => (f a, rest)) spelled (f a) where
  neat := hr.neat
  element := hr.element
  reads h := (hr.reads h).map f

/-- The part is how the field is written when it has this value. -/
structure Suits (f : RecordField α) (p : Part) (a : α) : Prop where
  named : f.name = p.name
  legible : Legible f.read p.spelled a
  absent : p.omissible → f.absent = some a

/-- The place of a field in a state from which it can be taken and in which it can be put. -/
def place (f : RecordField α) (get : σ → Option α) (put : α → σ → σ) (p : Part) (a : α) :
    Place σ :=
  ⟨p, f.cell get put, put a⟩

theorem Suits.lawful (hf : Suits f p a) {get : σ → Option α} {put : α → σ → σ}
    (hget : ∀ s, get (put a s) = some a) (hput : ∀ s, put a (put a s) = put a s) :
    (place f get put p a).Lawful where
  named := hf.named
  legible s := hf.legible.map (put · s)
  absent h s := by simp [place, RecordField.cell, hf.absent h]
  isSet s := by simp [place, RecordField.cell, hget]
  again := hput

theorem legible_readRecord2 (title : String) {build : α → β → δ}
    (hnames : AreNames [f.name, g.name]) (hf : Suits f p a) (hg : Suits g q b) :
    Legible (readRecord2 title f g build) (SpelledRecord [p, q]) (build a b) := by
  rw [hf.named, hg.named] at hnames
  have hlaid : Laid
      ⟨title, [f.cell (·.1) fun a s => (some a, s.2), g.cell (·.2) fun b s => (s.1, some b)], false⟩
      [place f (·.1) (fun a s => (some a, s.2)) p a,
        place g (·.2) (fun b s => (s.1, some b)) q b] :=
    { cells := rfl
      names := hnames
      lawful := List.forall_mem_cons.mpr ⟨hf.lawful (fun _ => rfl) fun _ => rfl,
        List.forall_mem_singleton.mpr (hg.lawful (fun _ => rfl) fun _ => rfl)⟩
      apart := List.pairwise_pair.mpr fun _ => ⟨rfl, rfl, rfl⟩ }
  exact legible_record hlaid (List.forall_mem_cons.mpr ⟨rfl, List.forall_mem_singleton.mpr rfl⟩) rfl

theorem legible_readRecord3 (title : String) {build : α → β → γ → δ}
    (hnames : AreNames [f.name, g.name, h.name]) (hf : Suits f p a) (hg : Suits g q b)
    (hh : Suits h u c) :
    Legible (readRecord3 title f g h build) (SpelledRecord [p, q, u]) (build a b c) := by
  rw [hf.named, hg.named, hh.named] at hnames
  have hlaid : Laid
      ⟨title,
        [f.cell (·.1) fun a s => (some a, s.2), g.cell (·.2.1) fun b s => (s.1, some b, s.2.2),
          h.cell (·.2.2) fun c s => (s.1, s.2.1, some c)],
        false⟩
      [place f (·.1) (fun a s => (some a, s.2)) p a,
        place g (·.2.1) (fun b s => (s.1, some b, s.2.2)) q b,
        place h (·.2.2) (fun c s => (s.1, s.2.1, some c)) u c] :=
    { cells := rfl
      names := hnames
      lawful := List.forall_mem_cons.mpr ⟨hf.lawful (fun _ => rfl) fun _ => rfl,
        List.forall_mem_cons.mpr ⟨hg.lawful (fun _ => rfl) fun _ => rfl,
          List.forall_mem_singleton.mpr (hh.lawful (fun _ => rfl) fun _ => rfl)⟩⟩
      apart := by
        refine .cons (List.forall_mem_cons.mpr ⟨fun _ => ⟨rfl, rfl, rfl⟩, ?_⟩)
          (List.pairwise_pair.mpr fun _ => ⟨rfl, rfl, rfl⟩)
        exact List.forall_mem_singleton.mpr fun _ => ⟨rfl, rfl, rfl⟩ }
  exact legible_record hlaid (List.forall_mem_cons.mpr ⟨rfl, List.forall_mem_cons.mpr
    ⟨rfl, List.forall_mem_singleton.mpr rfl⟩⟩) rfl

end

/-! ## Spellings of logs -/

section

variable {α : Type} {m : SlotMap α} {pairs : List (Slot × α)}

/-- The entries of a log in any order of their keys. A key may be repeated earlier in the log, with
any entry. -/
inductive Arranged (m : SlotMap α) : List (Slot × α) → Prop
  | keys {pairs : List (Slot × α)} (h : pairs.Perm m.toList) : Arranged m pairs
  | earlier {us vs : List (Slot × α)} {s : Slot} {a : α} (hlater : s ∈ vs.map Prod.fst)
      (h : Arranged m (us ++ vs)) : Arranged m (us ++ (s, a) :: vs)

/-- A log is spelled as an object of its entries. -/
def SpelledLog (spelled : α → List Token → Prop) (m : SlotMap α) (ts : List Token) : Prop :=
  ∃ pairs members, Arranged m pairs ∧
    List.Forall₂ (fun p ts => ∃ value, spelled p.2 value ∧ ts = member (slotKey p.1) value)
      pairs members ∧
    ts = object members

theorem insert_insert (m : SlotMap α) (s : Slot) (a b : α) :
    (m.insert s a).insert s b = m.insert s b := by
  refine Std.ExtTreeMap.ext_getElem? fun k => ?_
  simp only [Std.ExtTreeMap.getElem?_insert]
  split <;> rfl

theorem insert_comm (m : SlotMap α) {s k : Slot} (hne : s ≠ k) (a b : α) :
    (m.insert s a).insert k b = (m.insert k b).insert s a := by
  refine Std.ExtTreeMap.ext_getElem? fun l => ?_
  simp only [Std.ExtTreeMap.getElem?_insert, Std.compare_eq_iff_eq]
  by_cases hk : k = l
  · subst hk
    simp [hne]
  · simp [hk]

/-- A pair is lost if there is one for the same slot behind it. -/
theorem insertAll_insert {s : Slot} (hlater : s ∈ pairs.map Prod.fst) (m : SlotMap α) (a : α) :
    insertAll (m.insert s a) pairs = insertAll m pairs := by
  induction pairs generalizing m with
  | nil => cases hlater
  | cons p ps ih =>
    simp only [insertAll, List.foldl_cons]
    by_cases hs : s = p.1
    · rw [hs, insert_insert]
    · rw [insert_comm m hs]
      refine ih ?_ (m.insert p.1 p.2)
      simpa [hs] using hlater

/-- **Only the last entry of a key counts.** -/
theorem ofPairs_of_arranged (h : Arranged m pairs) : SlotMap.ofPairs pairs = m := by
  induction h with
  | keys h => exact ofPairs_of_perm h
  | @earlier us vs s a hlater _ ih =>
    rw [← ih]
    simp only [SlotMap.ofPairs, List.foldl_append, List.foldl_cons]
    exact insertAll_insert hlater _ a

/-- A log is legible in all its spellings if its entries are. -/
theorem legible_log [Wire α] {spelled : α → List Token → Prop}
    (hlegible : ∀ a, Legible read (spelled a) a) (m : SlotMap α) :
    Legible read (SpelledLog spelled m) m where
  neat := by
    rintro _ ⟨pairs, members, -, hmembers, rfl⟩
    refine neat_object (List.forall_iff_forall_mem.mpr ?_)
    induction hmembers with
    | nil => simp
    | cons hentry _ ih =>
      obtain ⟨value, hvalue, rfl⟩ := hentry
      exact List.forall_mem_cons.mpr
        ⟨neat_member (isBody_digits _) ((hlegible _).neat hvalue), ih⟩
  element := by
    rintro _ ⟨_, members, -, -, rfl⟩
    exact isElement_object members
  reads := by
    rintro _ ⟨pairs, members, harranged, hmembers, rfl⟩
    have hentries : List.Forall₂ (ReadsEntry read) pairs members :=
      hmembers.imp fun _ _ ⟨value, hvalue, hts⟩ => ⟨value, (hlegible _).reads hvalue, hts⟩
    rw [← ofPairs_of_arranged harranged]
    exact reads_entries hentries

end

end PaxosLog.Wire
