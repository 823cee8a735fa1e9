import PaxosLog.Proofs.Wire.Refusal

/-!
# One number in a text

What becomes of a text if one of its numbers is written differently. The place of a number is given
by the tokens before and behind it, so `fun y => before ++ y :: after` is the text with a hole in
this place, and `Hinge` says what a reader makes of it. A numeral that fits there gives the text of
another value, and every other numeral is refused (`Exact`). What fits depends on the place
(`limitBehind`).

| in front of a number | the number is | numbers that fit |
|---|---|---|
| `[` or `,` | a byte, the element of a list | below 256 |
| `:` | a word, the value of a member | below `2 ^ 64` |

A hole in a sequence is a hole in one of its parts (`split_enclosed`), and one in an object is one
in the value of a member (`split_object`, `split_fields`), for keys are no numbers. So exactness
comes from the inside: `exact_readRecord3`, `exact_variant`, `exact_bytes` and `exact_log` have a
hinge for each part that a hole can be in.
-/

namespace PaxosLog.Wire

open Json

/-- What the number behind these tokens must be below. -/
def limitBehind (before : List Token) : Nat :=
  match before.getLast? with
  | some .leftBracket => 256
  | some .comma => 256
  | _ => UInt64.size

theorem limitBehind_append (front : List Token) {b : List Token} (hb : b ≠ []) :
    limitBehind (front ++ b) = limitBehind b := by
  rw [limitBehind, List.getLast?_append_of_ne_nil front hb, limitBehind]

theorem limitBehind_colon (b : List Token) : limitBehind (.colon :: b) = limitBehind b := by
  cases b with
  | nil => rfl
  | cons t b => exact limitBehind_append [.colon] (List.cons_ne_nil t b)

/-! ## Where a token is -/

section

variable {before after : List Token} {x : Token}

/-- A token that is no comma is in one of the parts. -/
theorem split_separated {parts : List (List Token)} (hx : x ≠ .comma)
    (h : separated parts = before ++ x :: after) :
    ∃ pre b a post front, parts = pre ++ (b ++ x :: a) :: post ∧ before = front ++ b ∧
      (front = [] ∨ front.getLast? = some .comma) ∧
      ∀ y, separated (pre ++ (b ++ y :: a) :: post) = before ++ y :: after := by
  induction parts generalizing before with
  | nil => simp [separated] at h
  | cons p ps ih =>
    rw [separated_cons] at h
    obtain ⟨c, rfl, hc⟩ | ⟨c, rfl, hc⟩ := List.append_eq_append_iff.mp h
    · have hne : ps ≠ [] := by
        rintro rfl
        simp [behindCommas] at hc
      rw [behindCommas_eq hne] at hc
      cases c with
      | nil => exact absurd (List.cons.inj hc).1.symm hx
      | cons t c =>
        obtain ⟨rfl, hrest⟩ := List.cons.inj hc
        obtain ⟨pre, b, a, post, front, rfl, rfl, hfront, hhole⟩ := ih hrest
        refine ⟨p :: pre, b, a, post, p ++ .comma :: front, rfl, by simp, .inr ?_, fun y => ?_⟩
        · rcases hfront with rfl | hlast
          · simp
          · rw [List.getLast?_append, List.getLast?_cons, hlast]
            rfl
        · rw [List.cons_append, separated_cons, behindCommas_eq (by simp), hhole]
          simp
    · cases c with
      | nil =>
        rw [List.nil_append] at hc
        have hne : ps ≠ [] := by
          rintro rfl
          simp [behindCommas] at hc
        rw [behindCommas_eq hne] at hc
        exact absurd (List.cons.inj hc).1 hx
      | cons t c =>
        obtain ⟨rfl, rfl⟩ := List.cons.inj hc
        exact ⟨[], before, c, ps, [], rfl, rfl, .inl rfl, fun y => by simp [separated_cons]⟩

/-- A token between brackets or braces. -/
theorem split_enclosed {parts : List (List Token)} {opening closing : Token} (hx : x ≠ .comma)
    (hopening : x ≠ opening) (hclosing : x ≠ closing)
    (h : opening :: separated parts ++ [closing] = before ++ x :: after) :
    ∃ pre b a post front, parts = pre ++ (b ++ x :: a) :: post ∧ before = front ++ b ∧
      (front.getLast? = some opening ∨ front.getLast? = some .comma) ∧
      ∀ y, opening :: separated (pre ++ (b ++ y :: a) :: post) ++ [closing] =
        before ++ y :: after := by
  cases before with
  | nil => exact absurd (List.cons.inj h).1.symm hopening
  | cons t before =>
    obtain ⟨rfl, hrest⟩ := List.cons.inj h
    obtain ⟨after, rfl, hparts⟩ : ∃ as, after = as ++ [closing] ∧
        separated parts = before ++ x :: as := by
      rcases List.eq_nil_or_concat after with rfl | ⟨as, last, rfl⟩
      · have hlast := List.append_inj' hrest rfl
        exact absurd (List.cons.inj hlast.2).1.symm hclosing
      · have hsplit : separated parts ++ [closing] = (before ++ x :: as) ++ [last] := by
          simpa using hrest
        obtain ⟨hparts, hlast⟩ := List.append_inj' hsplit rfl
        exact ⟨as, by simp [hlast], hparts⟩
    obtain ⟨pre, b, a, post, front, rfl, rfl, hfront, hhole⟩ := split_separated hx hparts
    refine ⟨pre, b, a, post, opening :: front, rfl, rfl, ?_, fun y => by simp [hhole]⟩
    rcases hfront with rfl | hlast
    · exact .inl rfl
    · exact .inr (by rw [List.getLast?_cons, hlast]; rfl)

/-- A token of a member is its key or in its value. -/
theorem split_member {key : Token} {value b a : List Token} (hx : x ≠ .colon)
    (h : member key value = b ++ x :: a) :
    (b = [] ∧ x = key ∧ a = .colon :: value) ∨
      ∃ c, b = key :: .colon :: c ∧ value = c ++ x :: a := by
  rcases b with - | ⟨t, - | ⟨u, c⟩⟩
  · obtain ⟨rfl, rfl⟩ := List.cons.inj h
    exact .inl ⟨rfl, rfl, rfl⟩
  · simp only [member, List.cons_append, List.nil_append, List.cons.injEq] at h
    exact absurd h.2.1.symm hx
  · simp only [member, List.cons_append, List.cons.injEq] at h
    obtain ⟨rfl, rfl, rfl⟩ := h
    exact .inr ⟨c, rfl, rfl⟩

/-- A number or a string. -/
def isAtom : Token → Bool
  | .number _ => true
  | .string _ => true
  | _ => false

/-- A number or a string of an object is the key of a member, or in its value. -/
theorem split_object {ι : Type} {key : ι → Token} {value : ι → List Token} {items : List ι}
    (hx : isAtom x) (h : object (items.map fun i => member (key i) (value i)) =
      before ++ x :: after) :
    ∃ pre i post, items = pre ++ i :: post ∧
      ((x = key i ∧ ∀ y, object (pre.map (fun i => member (key i) (value i)) ++
          member y (value i) :: post.map fun i => member (key i) (value i)) =
            before ++ y :: after) ∨
        ∃ c a, value i = c ++ x :: a ∧ limitBehind before = limitBehind c ∧
          ∀ y, object (pre.map (fun i => member (key i) (value i)) ++
            member (key i) (c ++ y :: a) :: post.map fun i => member (key i) (value i)) =
              before ++ y :: after) := by
  obtain ⟨pre, b, a, post, front, hitems, rfl, -, hhole⟩ := split_enclosed (by rintro rfl; cases hx)
    (by rintro rfl; cases hx) (by rintro rfl; cases hx) h
  obtain ⟨pre, items, rfl, rfl, hrest⟩ := List.map_eq_append_iff.mp hitems
  obtain ⟨i, post, rfl, hi, rfl⟩ := List.map_eq_cons_iff.mp hrest
  refine ⟨pre, i, post, rfl, ?_⟩
  obtain ⟨rfl, rfl, rfl⟩ | ⟨c, rfl, hvalue⟩ := split_member (by rintro rfl; cases hx) hi
  · exact .inl ⟨rfl, hhole⟩
  · refine .inr ⟨c, a, hvalue, ?_, hhole⟩
    rw [limitBehind_append _ (List.cons_ne_nil _ _), ← List.singleton_append,
      limitBehind_append _ (List.cons_ne_nil _ _), limitBehind_colon]

/-- A number or a string that is no name of a field is in the value of one. -/
theorem split_fields {fields : List (String × List Token)} (hx : isAtom x)
    (h : object (fields.map fun p => member (name p.1) p.2) = before ++ x :: after)
    (hnames : fields.Forall fun p => x ≠ name p.1) :
    ∃ pre text c a post, fields = pre ++ (text, c ++ x :: a) :: post ∧
      limitBehind before = limitBehind c ∧
      ∀ y, object (pre.map (fun p => member (name p.1) p.2) ++
        member (name text) (c ++ y :: a) :: post.map fun p => member (name p.1) p.2) =
          before ++ y :: after := by
  obtain ⟨pre, ⟨text, value⟩, post, rfl, ⟨hname, -⟩ | ⟨c, a, rfl, hlimit, hhole⟩⟩ :=
    split_object hx h
  · exact absurd hname (List.forall_iff_forall_mem.mp hnames (text, value) (by simp))
  · exact ⟨pre, text, c, a, post, rfl, hlimit, hhole⟩

end

/-! ## Holes -/

section

variable {α β γ δ : Type} {r : Reader α} {write : α → List Token} {limit : Nat}
  {hole : Token → List Token}

/-- What a reader makes of a text with a hole for a number. -/
structure Hinge (r : Reader α) (write : α → List Token) (limit : Nat) (hole : Token → List Token) :
    Prop where
  /-- Numbers below the limit give texts of other values. -/
  admits : ∀ k < limit, ∃ a, write a = hole (.number (.ofNat k))
  /-- Anything else is a mistake. -/
  refuses : ∀ n : Numeral, ¬ n.Below limit → ∃ e, Fails r (hole (.number n)) e

/-- Every number in the text of a value is the hinge of what is read. -/
def Exact (r : Reader α) (write : α → List Token) (a : α) : Prop :=
  ∀ before n after, write a = before ++ .number n :: after →
    Hinge r write (limitBehind before) fun y => before ++ y :: after

/-- A text without numbers. -/
theorem exact_of_noNumber {a : α} (h : ∀ n, .number n ∉ write a) : Exact r write a := by
  intro before n after heq
  exact absurd (heq ▸ by simp) (h n)

/-! ## Simple values -/

/-- A text of one token. -/
theorem exact_single {a : α} {t : Token} (ha : write a = [t])
    (h : Hinge r write UInt64.size fun y => [y]) : Exact r write a := by
  intro before n after heq
  rw [ha] at heq
  cases before with
  | nil =>
    obtain ⟨-, rfl⟩ := List.cons.inj heq
    exact h
  | cons u before => simp at heq

theorem exact_word (n : UInt64) : Exact readWord (fun n : UInt64 => word n.toNat) n :=
  exact_single rfl
    { admits := fun k hk => ⟨UInt64.ofNat k, by simp [word, UInt64.toNat_ofNat_of_lt' hk]⟩
      refuses := fun n hn => by
        obtain ⟨e, he⟩ := natural_refuses hn .word
        exact ⟨e, fails_readNatural he⟩ }

theorem exact_optionalWord (n : Option UInt64) : Exact (readOption readWord) optionalWord n := by
  have hinge : Hinge (readOption readWord) optionalWord UInt64.size fun y => [y] :=
    { admits := fun k hk =>
        ⟨some (UInt64.ofNat k), by simp [optionalWord, word, UInt64.toNat_ofNat_of_lt' hk]⟩
      refuses := fun n hn => by
        obtain ⟨e, he⟩ := natural_refuses hn .word
        exact ⟨e, (fails_readNatural he).option (by simp) (by simp)⟩ }
  cases n with
  | none => exact exact_single rfl hinge
  | some n => exact exact_single rfl hinge

theorem exact_boolean (b : Bool) : Exact readBoolean (fun b => [.boolean b]) b :=
  exact_of_noNumber (by simp)

/-- The numbers of a list of bytes are its elements. -/
theorem exact_bytes (bs : Bytes) : Exact (readList readByte) bytes bs := by
  intro before n after heq
  have hlist : .leftBracket :: separated (bs.map fun b => word b.toNat) ++ [.rightBracket] =
      before ++ .number n :: after := heq
  obtain ⟨pre, b, a, post, front, hitems, rfl, hfront, hhole⟩ :=
    split_enclosed (by simp) (by simp) (by simp) hlist
  obtain ⟨xs, items, rfl, rfl, hrest⟩ := List.map_eq_append_iff.mp hitems
  obtain ⟨x, ys, rfl, hx, rfl⟩ := List.map_eq_cons_iff.mp hrest
  obtain ⟨rfl, rfl⟩ : b = [] ∧ a = [] := by
    have hlength := congrArg List.length hx
    simp only [word, List.length_append, List.length_cons, List.length_nil] at hlength
    exact ⟨List.length_eq_zero_iff.mp (by omega), List.length_eq_zero_iff.mp (by omega)⟩
  rw [List.append_nil] at hhole ⊢
  have hlimit : limitBehind front = 256 := by
    rcases hfront with hlast | hlast <;> simp [limitBehind, hlast]
  rw [hlimit]
  constructor
  · intro k hk
    refine ⟨xs ++ UInt8.ofNat k :: ys, ?_⟩
    rw [← hhole]
    simp [bytes, list, word, Nat.mod_eq_of_lt hk]
  · intro n hn
    obtain ⟨e, he⟩ := natural_refuses hn .byte
    refine ⟨e, ?_⟩
    rw [← hhole]
    exact fails_readList (fun b _ => reads_readByte b) (fun _ _ => ⟨_, [], rfl, by simp, by simp⟩)
      ⟨_, [], rfl, by simp, by simp⟩ ((fails_readNatural he).map _) _

/-! ## Records and variants -/

/-- A hole in a field. -/
theorem Hinge.field {σ : Type} {rec : Record σ} {s s' : σ} {f : RecordField β} {get : σ → Option β}
    {put : β → σ → σ} {build : σ → Option α} {writeField : β → List Token} {make : β → α}
    {members post : List (List Token)} (h : Hinge f.read writeField limit hole)
    (hnames : AreNames (rec.cells.map (·.name))) (hmem : f.cell get put ∈ rec.cells)
    (hfills : Fills rec s members s') (hunset : get s' = none)
    (hwrite : ∀ b, write (make b) =
      object (members ++ member (name f.name) (writeField b) :: post)) :
    Hinge (rec.read s build) write limit
      fun y => object (members ++ member (name f.name) (hole y) :: post) where
  admits k hk := by
    obtain ⟨b, hb⟩ := h.admits k hk
    exact ⟨make b, by rw [hwrite, hb]⟩
  refuses n hn := by
    obtain ⟨e, he⟩ := h.refuses n hn
    exact ⟨e, fails_record hnames hmem hfills hunset he post⟩

section

variable {f : RecordField α} {g : RecordField β} {h : RecordField γ} {wf : α → List Token}
  {wg : β → List Token} {wh : γ → List Token} {a : α} {b : β} {c : γ}

theorem exact_readRecord2 (title : String) {build : α → β → δ} {write : δ → List Token}
    (hwrite : ∀ a b, write (build a b) = object
      [member (name f.name) (wf a), member (name g.name) (wg b)])
    (hnames : AreNames [f.name, g.name]) (ef : Exact f.read wf a) (eg : Exact g.read wg b)
    (hf : Reads f.read (wf a) a) : Exact (readRecord2 title f g build) write (build a b) := by
  intro before n after heq
  have hobject : object ([(f.name, wf a), (g.name, wg b)].map fun p => member (name p.1) p.2) =
      before ++ .number n :: after := (hwrite a b).symm.trans heq
  obtain ⟨pre, key, u, v, post, hitems, hlimit, hhole⟩ :=
    split_fields rfl hobject ⟨by simp [name], by simp [name]⟩
  rw [hlimit, ← funext hhole]
  rcases pre with - | ⟨p, - | ⟨q, pre⟩⟩
  · obtain ⟨⟨rfl, hvalue⟩, rfl⟩ : (f.name = key ∧ _) ∧ _ := by simpa using hitems
    exact (ef _ _ _ hvalue).field hnames (.head _) (.nil _) rfl fun a => hwrite a b
  · obtain ⟨rfl, ⟨rfl, hvalue⟩, rfl⟩ : _ ∧ (g.name = key ∧ _) ∧ _ := by simpa using hitems
    exact (eg _ _ _ hvalue).field hnames (.tail _ (.head _))
      (.set hnames (.head _) rfl hf <| .nil _) rfl fun b => hwrite a b
  · simp at hitems

theorem exact_readRecord3 (title : String) {build : α → β → γ → δ} {write : δ → List Token}
    (hwrite : ∀ a b c, write (build a b c) = object
      [member (name f.name) (wf a), member (name g.name) (wg b), member (name h.name) (wh c)])
    (hnames : AreNames [f.name, g.name, h.name]) (ef : Exact f.read wf a) (eg : Exact g.read wg b)
    (eh : Exact h.read wh c) (hf : Reads f.read (wf a) a) (hg : Reads g.read (wg b) b) :
    Exact (readRecord3 title f g h build) write (build a b c) := by
  intro before n after heq
  have hobject : object ([(f.name, wf a), (g.name, wg b), (h.name, wh c)].map
      fun p => member (name p.1) p.2) = before ++ .number n :: after :=
    (hwrite a b c).symm.trans heq
  obtain ⟨pre, key, u, v, post, hitems, hlimit, hhole⟩ :=
    split_fields rfl hobject ⟨by simp [name], by simp [name], by simp [name]⟩
  rw [hlimit, ← funext hhole]
  rcases pre with - | ⟨p, - | ⟨q, - | ⟨o, pre⟩⟩⟩
  · obtain ⟨⟨rfl, hvalue⟩, rfl⟩ : (f.name = key ∧ _) ∧ _ := by simpa using hitems
    exact (ef _ _ _ hvalue).field hnames (.head _) (.nil _) rfl fun a => hwrite a b c
  · obtain ⟨rfl, ⟨rfl, hvalue⟩, rfl⟩ : _ ∧ (g.name = key ∧ _) ∧ _ := by simpa using hitems
    exact (eg _ _ _ hvalue).field hnames (.tail _ (.head _))
      (.set hnames (.head _) rfl hf <| .nil _) rfl fun b => hwrite a b c
  · obtain ⟨rfl, rfl, ⟨rfl, hvalue⟩, rfl⟩ : _ ∧ _ ∧ (h.name = key ∧ _) ∧ _ := by simpa using hitems
    exact (eh _ _ _ hvalue).field hnames (.tail _ (.tail _ (.head _)))
      (.set hnames (.head _) rfl hf <| .set hnames (.tail _ (.head _)) rfl hg <| .nil _) rfl
      fun c => hwrite a b c
  · simp at hitems

/-- The numbers of a variant are those of its content. -/
theorem exact_variant {variants : List (Variant β)} {v : Variant β} {key : String} {build : α → β}
    {write : β → List Token} (hwrite : ∀ a, write (build a) = variant key (wf a))
    (hnames : AreNames (variants.map (·.name))) (hmem : v ∈ variants) (hkey : v.name = key)
    (hread : v.read = fun ts => (r ts).map fun (a, rest) => (build a, rest)) (e : Exact r wf a) :
    Exact (readVariant variants) write (build a) := by
  intro before n after heq
  have hobject : object ([(key, wf a)].map fun p => member (name p.1) p.2) =
      before ++ .number n :: after := (hwrite a).symm.trans heq
  obtain ⟨pre, key', u, w, post, hitems, hlimit, hhole⟩ :=
    split_fields rfl hobject (by simp [name])
  rw [hlimit, ← funext hhole]
  rcases pre with - | ⟨p, pre⟩
  · obtain ⟨⟨rfl, hvalue⟩, rfl⟩ : (key = key' ∧ _) ∧ _ := by simpa using hitems
    have hinge := e _ _ _ hvalue
    constructor
    · intro k hk
      obtain ⟨b, hb⟩ := hinge.admits k hk
      exact ⟨build b, by rw [hwrite, hb]; rfl⟩
    · intro m hm
      obtain ⟨e, he⟩ := hinge.refuses m hm
      exact ⟨e, fails_variant hnames hmem hkey (by rw [hread]; exact he.map build)⟩
  · simp at hitems

end

/-! ## Logs -/

/-- Entries are read as they are written. -/
theorem readsEntries [Wire α] (hread : ∀ a : α, Reads read (tokens a) a)
    (pairs : List (Slot × α)) :
    List.Forall₂ (ReadsEntry read) pairs (pairs.map fun p => member (slotKey p.1) (tokens p.2)) :=
  List.forall₂_map_right_iff.mpr <| List.forall₂_same.mpr fun p _ => ⟨tokens p.2, hread p.2, rfl⟩

/-- The value of a slot is exchanged in its place. -/
theorem exists_exchanged {m : SlotMap α} {xs ys : List (Slot × α)} {s : Slot} {a : α}
    (h : m.toList = xs ++ (s, a) :: ys) (b : α) :
    ∃ m' : SlotMap α, m'.toList = xs ++ (s, b) :: ys := by
  have hdistinct : m.toList.Pairwise fun p q => ¬ compare p.1 q.1 = .eq :=
    Std.ExtTreeMap.distinct_keys_toList
  rw [h, List.pairwise_append, List.pairwise_cons] at hdistinct
  obtain ⟨-, ⟨hys, -⟩, hxs⟩ := hdistinct
  have hkeep : ∀ zs : List (Slot × α), (∀ p ∈ zs, p.1 ≠ s) →
      zs.map (fun p => (p.1, if p.1 = s then b else p.2)) = zs := fun zs hzs => by
    refine (List.map_congr_left fun p hp => ?_).trans (List.map_id zs)
    rw [if_neg (hzs p hp), id]
  refine ⟨m.map fun t c => if t = s then b else c, ?_⟩
  rw [Std.ExtTreeMap.toList_map, h, List.map_append, List.map_cons, hkeep xs, hkeep ys, if_pos rfl]
  · rintro p hp rfl
    exact hys p hp (by simp)
  · rintro p hp rfl
    exact hxs p hp _ (.head _) (by simp)

theorem exact_log [Wire α] (hread : ∀ a : α, Reads read (tokens a) a)
    (hexact : ∀ a : α, Exact read tokens a) (m : SlotMap α) : Exact read tokens m := by
  intro before n after heq
  have hobject : object (m.toList.map fun p => member (slotKey p.1) (tokens p.2)) =
      before ++ .number n :: after := heq
  obtain ⟨pre, ⟨s, a⟩, post, hitems, ⟨hkey, -⟩ | ⟨u, v, hvalue, hlimit, hhole⟩⟩ :=
    split_object rfl hobject
  · cases hkey
  rw [hlimit, ← funext hhole]
  have hinge := hexact a _ _ _ hvalue
  constructor
  · intro k hk
    obtain ⟨b, hb⟩ := hinge.admits k hk
    obtain ⟨m', hm'⟩ := exists_exchanged hitems b
    refine ⟨m', ?_⟩
    simp only [tokens, hm', List.map_append, List.map_cons]
    rw [hb]
  · intro t ht
    obtain ⟨e, he⟩ := hinge.refuses t ht
    exact ⟨e, fails_entries (readsEntries hread pre) (.inr ⟨s, keyWord_slotKey s, he⟩) _⟩

end

end PaxosLog.Wire
