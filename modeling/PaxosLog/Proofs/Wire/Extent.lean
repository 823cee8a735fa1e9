import PaxosLog.Proofs.Json.Split
import PaxosLog.Proofs.Wire.Records

/-!
# How much a reader takes

A reader that succeeds has looked at the tokens that it took and at no others: it takes the same
value off them whatever stands behind (`Takes`). This holds of every part of a reader, and so of
readers of lists, records, variants and logs. The last token that such a reader takes closes what
it read.

Loops over the parts of a list or an object are bounded by the number of tokens. Every part takes
one at least, so the bound is never reached, and a text with more behind it is read by the same
rounds: `readElements_extent`, `readFields_extent` and `readEntries_extent` are the inductions over
the rounds.
-/

namespace PaxosLog.Wire

open Json

/-- A reader that succeeds has taken some tokens, of which the last one is as `P` says, and takes
the same value off them whatever stands behind. -/
def Takes {α : Type} (P : Token → Prop) (r : Reader α) : Prop :=
  ∀ ts a rest, r ts = .ok (a, rest) →
    ∃ used last, ts = used ++ last :: rest ∧ P last ∧ Reads r (used ++ [last]) a

/-- Any token. -/
abbrev Any : Token → Prop := fun _ => True

/-- A token that tells where it ends. -/
abbrev Closed : Token → Prop := fun t => t.isClosed = true

section

variable {α β : Type} {P Q : Token → Prop} {r : Reader α}

theorem Takes.mono (h : Takes P r) (hPQ : ∀ t, P t → Q t) : Takes Q r := by
  intro ts a rest hr
  obtain ⟨used, last, hts, hP, hreads⟩ := h ts a rest hr
  exact ⟨used, last, hts, hPQ last hP, hreads⟩

theorem Takes.any (h : Takes P r) : Takes Any r := h.mono fun _ _ => trivial

/-- A reader that takes a single token. -/
theorem takes_single (h : ∀ ts a rest, r ts = .ok (a, rest) →
    ∃ t, P t ∧ ts = t :: rest ∧ Reads r [t] a) : Takes P r := by
  intro ts a rest hr
  obtain ⟨t, hP, hts, hreads⟩ := h ts a rest hr
  exact ⟨[], t, hts, hP, hreads⟩

theorem Takes.map (h : Takes P r) (f : α → β) :
    Takes P fun ts => (r ts).map fun (a, rest) => (f a, rest) := by
  intro ts b rest hr
  obtain ⟨⟨a, rest'⟩, ha, heq⟩ := map_eq_ok.mp hr
  cases heq
  obtain ⟨used, last, hts, hP, hreads⟩ := h ts a rest ha
  exact ⟨used, last, hts, hP, hreads.map f⟩

/-- One reader behind another. -/
theorem Takes.bind {f : α → Reader β} (hr : Takes P r) (hf : ∀ a, Takes Q (f a)) :
    Takes Q fun ts => r ts >>= fun (a, rest) => f a rest := by
  intro ts b rest h
  obtain ⟨⟨a, ts'⟩, ha, hb⟩ := bind_eq_ok.mp h
  obtain ⟨used₁, last₁, rfl, -, hreads₁⟩ := hr _ _ _ ha
  obtain ⟨used₂, last₂, rfl, hQ, hreads₂⟩ := hf a _ _ _ hb
  refine ⟨used₁ ++ last₁ :: used₂, last₂, by simp, hQ, fun more => ?_⟩
  have h₁ := hreads₁ (used₂ ++ last₂ :: more)
  have h₂ := hreads₂ more
  simp only [List.append_assoc, List.cons_append, List.nil_append] at h₁ h₂ ⊢
  rw [h₁, ok_bind, h₂]

/-! ## Simple values -/

theorem takes_readNatural (shape : Shape) (limit : Nat) : Takes Any (readNatural shape limit) := by
  refine takes_single fun ts a rest h => ?_
  unfold readNatural at h
  split at h
  · rename_i n rest'
    obtain ⟨k, hk, heq⟩ := map_eq_ok.mp h
    cases heq
    exact ⟨.number n, trivial, rfl, fun more => by simp [readNatural, hk, Except.map]⟩
  · cases h

theorem takes_readByte : Takes Any readByte := (takes_readNatural .byte 256).map _

theorem takes_readBoolean : Takes Closed readBoolean := by
  refine takes_single fun ts a rest h => ?_
  unfold readBoolean at h
  split at h
  · cases h
    exact ⟨_, rfl, rfl, fun more => rfl⟩
  · cases h

theorem takes_readUnit : Takes Closed readUnit := by
  refine takes_single fun ts a rest h => ?_
  unfold readUnit at h
  split at h
  · cases h
    exact ⟨_, rfl, rfl, fun more => rfl⟩
  · cases h

theorem takes_readColon : Takes Closed readColon := by
  refine takes_single fun ts a rest h => ?_
  unfold readColon at h
  split at h
  · cases h
    exact ⟨_, rfl, rfl, fun more => rfl⟩
  · cases h

theorem takes_readOption (h : Takes P r) : Takes Any (readOption r) := by
  intro ts a rest hr
  unfold readOption at hr
  split at hr
  · cases hr
    exact ⟨[], .null, rfl, trivial, fun more => rfl⟩
  · rename_i hnull
    obtain ⟨⟨b, rest'⟩, hb, heq⟩ := map_eq_ok.mp hr
    cases heq
    obtain ⟨used, last, rfl, -, hreads⟩ := h ts b rest hb
    refine ⟨used, last, rfl, trivial, hreads.some ?_ (by simp)⟩
    cases used with
    | nil =>
      rintro ⟨⟩
      exact hnull rest rfl
    | cons t used =>
      rintro ⟨⟩
      exact hnull (used ++ last :: rest) rfl

/-! ## Lists -/

/-- What stands before an element: nothing before the first one, a comma before any other. -/
def lead (first : Bool) : List Token := if first then [] else [.comma]

/-- There is an element if one starts behind what stands before it. -/
theorem nextElement_lead (first : Bool) {ts : List Token} (hne : ts ≠ [])
    (hbracket : ∀ us, ts ≠ .rightBracket :: us) :
    nextElement first (lead first ++ ts) = .ok (true, ts) := by
  obtain ⟨t, us, rfl⟩ := List.exists_cons_of_ne_nil hne
  have ht : t ≠ .rightBracket := fun heq => hbracket us (heq ▸ rfl)
  cases first with
  | true => cases t <;> simp_all [nextElement, lead]
  | false => simp [nextElement, lead]

theorem nextElement_cases {first more : Bool} {ts rest : List Token}
    (h : nextElement first ts = .ok (more, rest)) :
    more = false ∧ ts = .rightBracket :: rest ∨
      more = true ∧ ts = lead first ++ rest ∧ ∀ us, rest ≠ .rightBracket :: us := by
  unfold nextElement at h
  split at h
  · cases h
    exact .inl ⟨rfl, rfl⟩
  · split at h
    · rename_i hfirst
      cases h
      exact .inr ⟨rfl, by simp [lead, hfirst], by simp⟩
    · rename_i hfirst
      split at h
      · cases h
      · cases h
      · rename_i hbracket _
        cases h
        exact .inr ⟨rfl, by simp [lead, hfirst], hbracket⟩
  · cases h
  · rename_i hbracket hcomma
    split at h
    · rename_i hfirst
      cases h
      exact .inr ⟨rfl, by simp [lead, hfirst], fun us heq => by cases heq; exact hbracket rfl⟩
    · cases h

/-- What a reader has taken starts like the text that it was given. -/
theorem ne_rightBracket {used rest : List Token} {last : Token}
    (h : ∀ us, used ++ last :: rest ≠ .rightBracket :: us) (more : List Token) :
    ∀ us, used ++ last :: more ≠ .rightBracket :: us := by
  cases used with
  | nil => simpa using h
  | cons t used => simpa using h

/-- Elements are read in as many rounds as there are elements, whatever stands behind. -/
theorem readElements_extent (hr : Takes P r) {read as : List α} {count : Nat}
    {ts rest : List Token} (h : readElements r read count ts = .ok (as, rest)) :
    ∃ used, ts = used ++ .rightBracket :: rest ∧ ∀ n, used.length < n → ∀ more,
      readElements r read n (used ++ .rightBracket :: more) = .ok (as, more) := by
  induction count generalizing read ts with
  | zero => cases h
  | succ count ih =>
    unfold readElements at h
    obtain ⟨⟨more?, ts₁⟩, hnext, hround⟩ := bind_eq_ok.mp h
    rcases nextElement_cases hnext with ⟨rfl, rfl⟩ | ⟨rfl, rfl, hbracket⟩
    · cases hround
      refine ⟨[], rfl, fun n hn more => ?_⟩
      obtain ⟨n, rfl⟩ := Nat.exists_eq_succ_of_ne_zero (Nat.ne_of_gt hn)
      simp [readElements, nextElement]
    · simp only [if_true] at hround
      obtain ⟨⟨a, ts₂⟩, ha, hrest⟩ := bind_eq_ok.mp hround
      obtain ⟨used₁, last, rfl, -, hreads⟩ := hr _ _ _ ha
      obtain ⟨used₂, rfl, hrounds⟩ := ih hrest
      refine ⟨lead read.isEmpty ++ (used₁ ++ last :: used₂), by simp, fun n hn more => ?_⟩
      obtain ⟨n, rfl⟩ := Nat.exists_eq_succ_of_ne_zero (Nat.ne_of_gt (Nat.zero_lt_of_lt hn))
      have hne := ne_rightBracket hbracket (used₂ ++ .rightBracket :: more)
      have helement := hreads (used₂ ++ .rightBracket :: more)
      have hlt : used₂.length < n := by
        simp only [List.length_append, List.length_cons] at hn
        omega
      have hrest := hrounds n hlt more
      simp only [List.append_assoc, List.cons_append, List.nil_append] at helement ⊢
      rw [readElements, nextElement_lead _ (by simp) hne]
      simp only [ok_bind, if_true, helement, hrest]

theorem takes_readList (hr : Takes P r) : Takes Closed (readList r) := by
  intro ts as rest h
  unfold readList at h
  split at h
  · obtain ⟨used, rfl, hrounds⟩ := readElements_extent hr h
    refine ⟨.leftBracket :: used, .rightBracket, rfl, rfl, fun more => ?_⟩
    have hlt : used.length < (used ++ .rightBracket :: more).length + 1 := by
      rw [List.length_append]
      omega
    have hmore := hrounds _ hlt more
    simpa [readList] using hmore
  · cases h

/-! ## Keys and values that are passed over -/

theorem nextKey_extent {first : Bool} {ts rest : List Token} {key : Option (List UInt8 × Bool)}
    (h : nextKey first ts = .ok (key, rest)) :
    ∃ used last, ts = used ++ last :: rest ∧ (key = none → used = [] ∧ last = .rightBrace) ∧
      Reads (nextKey first) (used ++ [last]) key := by
  unfold nextKey at h
  split at h
  · cases h
    exact ⟨[], .rightBrace, rfl, fun _ => ⟨rfl, rfl⟩, fun more => rfl⟩
  · split at h
    · cases h
    · rename_i hfirst
      split at h
      · cases h
        exact ⟨[.comma], .string _, rfl, by simp, fun more => by simp [nextKey, hfirst]⟩
      · cases h
        exact ⟨[.comma], .unclosed _, rfl, by simp, fun more => by simp [nextKey, hfirst]⟩
      · cases h
  · split at h
    · rename_i hfirst
      cases h
      exact ⟨[], .string _, rfl, by simp, fun more => by simp [nextKey, hfirst]⟩
    · cases h
  · split at h
    · rename_i hfirst
      cases h
      exact ⟨[], .unclosed _, rfl, by simp, fun more => by simp [nextKey, hfirst]⟩
    · cases h
  · cases h

/-- Passing over a value takes as many tokens as it does, whatever stands behind. In front of a
value there is one at least. -/
theorem skip_extent {levels : List Level} {place : Place} {ts rest : List Token}
    (h : skip levels place ts = some rest) :
    ∃ used, ts = used ++ rest ∧ (place = .before → used ≠ []) ∧
      ∀ more, skip levels place (used ++ more) = some more := by
  fun_induction skip levels place ts
  case case1 =>
    cases h
    exact ⟨[], rfl, by simp, fun more => by simp [skip]⟩
  case case3 hbracket ih =>
    -- The value behind the bracket is not empty, so what was taken starts like the text.
    obtain ⟨used, rfl, hne, hrounds⟩ := ih h
    obtain ⟨t, used, rfl⟩ := List.exists_cons_of_ne_nil (hne rfl)
    refine ⟨.leftBracket :: t :: used, rfl, by simp, fun more => ?_⟩
    have ht : t ≠ .rightBracket := fun heq => hbracket (used ++ rest) (by rw [heq]; rfl)
    simpa [skip, ht] using hrounds more
  case case2 ih | case4 ih =>
    obtain ⟨used, rfl, -, hrounds⟩ := ih h
    exact ⟨_ :: _ :: used, rfl, by simp, fun more => by simpa [skip] using hrounds more⟩
  case case5 ih | case12 ih =>
    obtain ⟨used, rfl, -, hrounds⟩ := ih h
    exact ⟨_ :: .string _ :: .colon :: used, rfl, by simp,
      fun more => by simpa [skip] using hrounds more⟩
  case case6 ih | case7 ih | case8 ih | case9 ih | case10 ih | case11 ih | case13 ih =>
    obtain ⟨used, rfl, -, hrounds⟩ := ih h
    exact ⟨_ :: used, rfl, by simp, fun more => by simpa [skip] using hrounds more⟩
  case case14 => cases h

theorem takes_skipValue : Takes Any skipValue := by
  intro ts a rest h
  unfold skipValue at h
  split at h
  · rename_i rest' hskip
    cases h
    obtain ⟨used, rfl, hne, hrounds⟩ := skip_extent hskip
    obtain ⟨front, last, rfl⟩ := List.eq_nil_or_concat used |>.resolve_left (hne rfl)
    refine ⟨front, last, by simp, trivial, fun more => ?_⟩
    have hmore := hrounds more
    simp [skipValue] at hmore ⊢
    simp [hmore]
  · cases h

/-! ## Records -/

section

variable {σ : Type} {rec : Record σ}

/-- The value of a field is taken behind its colon. -/
theorem takes_readField (hcells : ∀ c ∈ rec.cells, ∀ s, Takes Any (c.read s)) (text : List Char)
    (s : σ) : Takes Any (rec.readField text s) := by
  cases hfind : rec.cells.find? fun c => c.name.toList = text with
  | none =>
    have heq : rec.readField text s = fun ts => readColon ts >>= fun p =>
        (skipValue p.2).map fun q => (s, q.2) := by
      funext ts
      simp only [Record.readField, hfind]
      rfl
    rw [heq]
    exact takes_readColon.bind fun _ => takes_skipValue.map fun _ => s
  | some c =>
    by_cases hset : c.isSet s
    · intro ts s' rest h
      simp [Record.readField, hfind, hset] at h
    · have heq : rec.readField text s = fun ts => readColon ts >>= fun p => c.read s p.2 := by
        funext ts
        simp only [Record.readField, hfind, hset]
        rfl
      rw [heq]
      exact takes_readColon.bind fun _ => hcells c (List.mem_of_find?_eq_some hfind) s

/-- Fields are read in as many rounds as there are fields, whatever stands behind. -/
theorem readFields_extent (hcells : ∀ c ∈ rec.cells, ∀ s, Takes Any (c.read s)) {first : Bool}
    {s s' : σ} {count : Nat} {ts rest : List Token}
    (h : rec.readFields first s count ts = .ok (s', rest)) :
    ∃ used, ts = used ++ .rightBrace :: rest ∧ ∀ n, used.length < n → ∀ more,
      rec.readFields first s n (used ++ .rightBrace :: more) = .ok (s', more) := by
  induction count generalizing first s ts with
  | zero => cases h
  | succ count ih =>
    unfold Record.readFields at h
    obtain ⟨⟨key, ts₁⟩, hnext, hround⟩ := bind_eq_ok.mp h
    obtain ⟨used₁, last₁, rfl, hend, hkey⟩ := nextKey_extent hnext
    cases key with
    | none =>
      obtain ⟨rfl, rfl⟩ := hend rfl
      obtain ⟨t, ht, heq⟩ := bind_eq_ok.mp hround
      cases heq
      refine ⟨[], rfl, fun n hn more => ?_⟩
      obtain ⟨n, rfl⟩ := Nat.exists_eq_succ_of_ne_zero (Nat.ne_of_gt hn)
      simp [Record.readFields, nextKey, ht]
    | some key =>
      obtain ⟨text, htext, hfield⟩ := bind_eq_ok.mp hround
      obtain ⟨⟨t, ts₂⟩, ht, hrest⟩ := bind_eq_ok.mp hfield
      obtain ⟨used₂, last₂, rfl, -, hvalue⟩ := takes_readField hcells text s _ _ _ ht
      obtain ⟨used₃, rfl, hrounds⟩ := ih hrest
      refine ⟨used₁ ++ last₁ :: (used₂ ++ last₂ :: used₃), by simp, fun n hn more => ?_⟩
      obtain ⟨n, rfl⟩ := Nat.exists_eq_succ_of_ne_zero (Nat.ne_of_gt (Nat.zero_lt_of_lt hn))
      have h₁ := hkey (used₂ ++ last₂ :: (used₃ ++ .rightBrace :: more))
      have h₂ := hvalue (used₃ ++ .rightBrace :: more)
      have hlt : used₃.length < n := by
        simp only [List.length_append, List.length_cons] at hn
        omega
      have h₃ := hrounds n hlt more
      simp only [List.append_assoc, List.cons_append, List.nil_append] at h₁ h₂ ⊢
      simp only [Record.readFields, h₁, ok_bind, htext, h₂, h₃]

/-- The elements that are left are read in their order, whatever stands behind. -/
theorem readPlaces_extent {index : Nat} {s s' : σ} {cells : List (Cell σ)}
    (hcells : ∀ c ∈ cells, ∀ s, Takes Any (c.read s)) {ts rest : List Token}
    (h : rec.readPlaces index s cells ts = .ok (s', rest)) :
    ∃ used, ts = used ++ .rightBracket :: rest ∧
      Reads (rec.readPlaces index s cells) (used ++ [.rightBracket]) s' := by
  induction cells generalizing index s ts with
  | nil =>
    unfold Record.readPlaces at h
    split at h
    · cases h
      exact ⟨[], rfl, fun more => rfl⟩
    · cases h
  | cons c cells ih =>
    unfold Record.readPlaces at h
    obtain ⟨⟨more?, ts₁⟩, hnext, hround⟩ := bind_eq_ok.mp h
    rcases nextElement_cases hnext with ⟨rfl, rfl⟩ | ⟨rfl, rfl, hbracket⟩
    · simp only [Bool.false_eq_true, if_false] at hround
      split at hround
      · rename_i hlenient
        obtain ⟨t, ht, heq⟩ := bind_eq_ok.mp hround
        cases heq
        exact ⟨[], rfl, fun more => by simp [Record.readPlaces, nextElement, hlenient, ht]⟩
      · cases hround
    · simp only [if_true] at hround
      obtain ⟨⟨t, ts₂⟩, ht, hrest⟩ := bind_eq_ok.mp hround
      obtain ⟨used₁, last, rfl, -, hvalue⟩ := hcells c (.head _) s _ _ _ ht
      obtain ⟨used₂, rfl, hrounds⟩ := ih (fun c hc => hcells c (.tail _ hc)) hrest
      refine ⟨lead (index = 0) ++ (used₁ ++ last :: used₂), by simp, fun more => ?_⟩
      have hne := ne_rightBracket hbracket (used₂ ++ .rightBracket :: more)
      have h₁ := hvalue (used₂ ++ .rightBracket :: more)
      have h₂ := hrounds more
      simp only [List.append_assoc, List.cons_append, List.nil_append] at h₁ h₂ ⊢
      rw [Record.readPlaces, nextElement_lead _ (by simp) hne]
      simp only [ok_bind, if_true, h₁, h₂]

theorem takes_readCells (hcells : ∀ c ∈ rec.cells, ∀ s, Takes Any (c.read s)) (s : σ) :
    Takes Closed (rec.readCells s) := by
  intro ts s' rest h
  unfold Record.readCells at h
  split at h
  · obtain ⟨used, rfl, hrounds⟩ := readFields_extent hcells h
    refine ⟨.leftBrace :: used, .rightBrace, rfl, rfl, fun more => ?_⟩
    have hlt : used.length < (used ++ .rightBrace :: more).length + 1 := by
      rw [List.length_append]
      omega
    have hmore := hrounds _ hlt more
    simpa [Record.readCells] using hmore
  · obtain ⟨used, rfl, hrounds⟩ := readPlaces_extent hcells h
    exact ⟨.leftBracket :: used, .rightBracket, rfl, rfl, hrounds⟩
  · cases h

theorem takes_record {α : Type} (hcells : ∀ c ∈ rec.cells, ∀ s, Takes Any (c.read s)) (s : σ)
    (build : σ → Option α) : Takes Closed (rec.read s build) := by
  intro ts a rest h
  obtain ⟨⟨s', ts'⟩, hs, hbuild⟩ := bind_eq_ok.mp h
  obtain ⟨used, last, rfl, hlast, hreads⟩ := takes_readCells hcells s _ _ _ hs
  cases ha : build s' with
  | none => simp [ha] at hbuild
  | some b =>
    simp only [ha] at hbuild
    cases hbuild
    refine ⟨used, last, rfl, hlast, fun more => ?_⟩
    rw [Record.read, hreads more]
    simp [ha]

theorem takes_cell {α : Type} {f : RecordField α} (hf : Takes P f.read) (get : σ → Option α)
    (put : α → σ → σ) (s : σ) : Takes Any ((f.cell get put).read s) :=
  (hf.map (put · s)).any

end

section

variable {γ δ ε : Type} {f : RecordField α} {g : RecordField β} {h : RecordField γ}

theorem takes_readRecord2 (title : String) (build : α → β → ε) (hf : Takes P f.read)
    (hg : Takes Q g.read) : Takes Closed (readRecord2 title f g build) := by
  refine takes_record (fun c hc s => ?_) _ _
  simp only [List.mem_cons, List.not_mem_nil, or_false] at hc
  rcases hc with rfl | rfl
  · exact takes_cell hf _ _ s
  · exact takes_cell hg _ _ s

theorem takes_readRecord3 {R : Token → Prop} (title : String) (build : α → β → γ → ε)
    (hf : Takes P f.read) (hg : Takes Q g.read) (hh : Takes R h.read) :
    Takes Closed (readRecord3 title f g h build) := by
  refine takes_record (fun c hc s => ?_) _ _
  simp only [List.mem_cons, List.not_mem_nil, or_false] at hc
  rcases hc with rfl | rfl | rfl
  · exact takes_cell hf _ _ s
  · exact takes_cell hg _ _ s
  · exact takes_cell hh _ _ s

end

/-! ## Variants -/

theorem mem_of_findVariant {variants : List (Variant α)} {text : List Char} {v : Variant α}
    (h : findVariant variants text = .ok v) : v ∈ variants := by
  unfold findVariant at h
  split at h
  · rename_i hfind
    cases h
    exact List.mem_of_find?_eq_some hfind
  · cases h

theorem takes_readVariant {variants : List (Variant α)}
    (hvariants : ∀ v ∈ variants, Takes Any v.read) : Takes Closed (readVariant variants) := by
  intro ts a rest h
  unfold readVariant at h
  split at h
  · rename_i body ts
    obtain ⟨text, htext, h₁⟩ := bind_eq_ok.mp h
    obtain ⟨v, hv, h₂⟩ := bind_eq_ok.mp h₁
    obtain ⟨⟨⟨⟩, ts₁⟩, hcolon, h₃⟩ := bind_eq_ok.mp h₂
    obtain ⟨⟨b, ts₂⟩, hb, h₄⟩ := bind_eq_ok.mp h₃
    have hmem := mem_of_findVariant hv
    split at h₄
    · rename_i hb'
      cases hb'
      cases h₄
      obtain ⟨used₁, last₁, rfl, -, hreads₁⟩ := takes_readColon _ _ _ hcolon
      obtain ⟨used₂, last₂, rfl, -, hreads₂⟩ := hvariants v hmem _ _ _ hb
      refine ⟨.leftBrace :: .string body :: (used₁ ++ last₁ :: (used₂ ++ [last₂])), .rightBrace,
        by simp, rfl, fun more => ?_⟩
      have hcolon' := hreads₁ (used₂ ++ last₂ :: .rightBrace :: more)
      have hcontent := hreads₂ (.rightBrace :: more)
      simp only [List.append_assoc, List.cons_append, List.nil_append] at hcolon' hcontent ⊢
      simp only [readVariant, htext, hv, ok_bind, hcolon', hcontent]
      rfl
    · cases h₄
  · rename_i body ts
    obtain ⟨text, htext, h₁⟩ := bind_eq_ok.mp h
    obtain ⟨v, hv, h₂⟩ := bind_eq_ok.mp h₁
    split at h₂
    · rename_i halone
      cases h₂
      exact ⟨[], .string body, rfl, rfl, fun more => by simp [readVariant, htext, hv, halone]⟩
    · cases h₂
  · cases h

/-! ## Logs -/

/-- Entries are read in as many rounds as there are entries, whatever stands behind. -/
theorem readEntries_extent (hr : Takes P r) {first : Bool} {m m' : SlotMap α} {count : Nat}
    {ts rest : List Token} (h : readEntries r first m count ts = .ok (m', rest)) :
    ∃ used, ts = used ++ .rightBrace :: rest ∧ ∀ n, used.length < n → ∀ more,
      readEntries r first m n (used ++ .rightBrace :: more) = .ok (m', more) := by
  induction count generalizing first m ts with
  | zero => cases h
  | succ count ih =>
    unfold readEntries at h
    obtain ⟨⟨key, ts₁⟩, hnext, hround⟩ := bind_eq_ok.mp h
    obtain ⟨used₁, last₁, rfl, hend, hkey⟩ := nextKey_extent hnext
    cases key with
    | none =>
      obtain ⟨rfl, rfl⟩ := hend rfl
      cases hround
      refine ⟨[], rfl, fun n hn more => ?_⟩
      obtain ⟨n, rfl⟩ := Nat.exists_eq_succ_of_ne_zero (Nat.ne_of_gt hn)
      simp [readEntries, nextKey]
    | some key =>
      obtain ⟨s, hs, hentry⟩ := bind_eq_ok.mp hround
      obtain ⟨⟨⟨⟩, ts₂⟩, hcolon, hvalue⟩ := bind_eq_ok.mp hentry
      obtain ⟨⟨a, ts₃⟩, ha, hrest⟩ := bind_eq_ok.mp hvalue
      obtain ⟨used₂, last₂, rfl, -, hcolon'⟩ := takes_readColon _ _ _ hcolon
      obtain ⟨used₃, last₃, rfl, -, hvalue'⟩ := hr _ _ _ ha
      obtain ⟨used₄, rfl, hrounds⟩ := ih hrest
      refine ⟨used₁ ++ last₁ :: (used₂ ++ last₂ :: (used₃ ++ last₃ :: used₄)), by simp,
        fun n hn more => ?_⟩
      obtain ⟨n, rfl⟩ := Nat.exists_eq_succ_of_ne_zero (Nat.ne_of_gt (Nat.zero_lt_of_lt hn))
      have h₁ := hkey (used₂ ++ last₂ :: (used₃ ++ last₃ :: (used₄ ++ .rightBrace :: more)))
      have h₂ := hcolon' (used₃ ++ last₃ :: (used₄ ++ .rightBrace :: more))
      have h₃ := hvalue' (used₄ ++ .rightBrace :: more)
      have hlt : used₄.length < n := by
        simp only [List.length_append, List.length_cons] at hn
        omega
      have h₄ := hrounds n hlt more
      simp only [List.append_assoc, List.cons_append, List.nil_append] at h₁ h₂ h₃ ⊢
      simp only [readEntries, h₁, ok_bind, hs, h₂, h₃, h₄]

theorem takes_readLog [Wire α] (hr : Takes P (read : Reader α)) :
    Takes Closed (read : Reader (SlotMap α)) := by
  intro ts m rest h
  simp only [read] at h
  split at h
  · obtain ⟨used, rfl, hrounds⟩ := readEntries_extent hr h
    refine ⟨.leftBrace :: used, .rightBrace, rfl, rfl, fun more => ?_⟩
    have hlt : used.length < (used ++ .rightBrace :: more).length + 1 := by
      rw [List.length_append]
      omega
    have hmore := hrounds _ hlt more
    simpa [read] using hmore
  · cases h

end

end PaxosLog.Wire
