import PaxosLog.Proofs.Wire.Parts

/-!
# Values of any shape

`IsValue ts` says that tokens are a value of JSON: null, a truth value, a numeral, a string, or a
list or an object of values. Such a value can be passed over wherever it stands, and reading goes on
behind it (`reads_skipValue`). The passing keeps a stack of what it is inside of, and is the same
under every stack (`skip_value`), so that the proof is an induction on the value alone.
-/

namespace PaxosLog.Wire

open Json

/-- The tokens of a value. -/
inductive IsValue : List Token → Prop
  | null : IsValue [.null]
  | boolean (b : Bool) : IsValue [.boolean b]
  | number {n : Numeral} (hn : n.wellFormed) : IsValue [.number n]
  | string {body : List UInt8} (hbody : IsBody body) : IsValue [.string body]
  | list {elements : List (List Token)} (h : ∀ e ∈ elements, IsValue e) : IsValue (list elements)
  | object {members : List (List UInt8 × List Token)} (hkeys : ∀ m ∈ members, IsBody m.1)
      (h : ∀ m ∈ members, IsValue m.2) :
      IsValue (object (members.map fun m => member (.string m.1) m.2))

theorem isElement_object (members : List (List Token)) : IsElement (object members) :=
  ⟨.leftBrace, _, rfl, by simp, by simp⟩

theorem isElement_list (elements : List (List Token)) : IsElement (list elements) :=
  ⟨.leftBracket, _, rfl, by simp, by simp⟩

theorem IsValue.isElement {ts : List Token} (h : IsValue ts) : IsElement ts := by
  cases h with
  | list => exact isElement_list _
  | object => exact isElement_object _
  | _ => exact ⟨_, [], rfl, by simp, by simp⟩

theorem IsValue.neat {ts : List Token} (h : IsValue ts) : Neat ts := by
  induction h with
  | null => exact (neat_cons rfl).mpr ⟨trivial, neat_nil⟩
  | boolean b => exact neat_boolean b
  | number hn => exact ⟨by simpa [Token.Proper] using hn, by simp⟩
  | string hbody => exact (neat_cons rfl).mpr ⟨hbody, neat_nil⟩
  | list _ ih => exact neat_list ih
  | object hkeys _ ih =>
    refine neat_object (List.forall_iff_forall_mem.mpr fun ts hts => ?_)
    obtain ⟨m, hm, rfl⟩ := List.mem_map.mp hts
    exact neat_member (hkeys m hm) (ih m hm)

/-! ## Passing over -/

/-- Passing over these tokens gets from in front of them to behind them, whatever they are part
of. -/
def Passed (ts : List Token) : Prop :=
  ∀ levels rest, skip levels .before (ts ++ rest) = skip levels .behind rest

theorem passed_elements {elements : List (List Token)} (h : ∀ e ∈ elements, Passed e)
    (levels : List Level) (rest : List Token) :
    skip (.list :: levels) .behind (behindCommas elements ++ .rightBracket :: rest) =
      skip levels .behind rest := by
  induction elements with
  | nil => simp [behindCommas, skip]
  | cons e es ih =>
    have hes := ih fun f hf => h f (.tail _ hf)
    simp only [behindCommas_cons, List.cons_append, List.append_assoc, skip]
    rw [h e (.head _), hes]

theorem passed_list {elements : List (List Token)} (hvalues : ∀ e ∈ elements, IsValue e)
    (h : ∀ e ∈ elements, Passed e) : Passed (list elements) := by
  intro levels rest
  cases elements with
  | nil => simp [list, separated, skip]
  | cons e es =>
    -- The first element does not start with a bracket that closes the list.
    obtain ⟨t, us, ht, hbracket, -⟩ := (hvalues e (.head _)).isElement
    have hfirst := h e (.head _) (.list :: levels) (behindCommas es ++ .rightBracket :: rest)
    have hes := passed_elements (fun f hf => h f (.tail _ hf)) levels rest
    rw [hes, ht, List.cons_append] at hfirst
    simp only [list, separated_cons, ht, List.cons_append, List.append_assoc, List.nil_append]
    simpa [skip, hbracket] using hfirst

/-- The members of an object behind the first one. -/
theorem passed_members {members : List (List UInt8 × List Token)}
    (h : ∀ m ∈ members, Passed m.2) (levels : List Level) (rest : List Token) :
    skip (.object :: levels) .behind
        (behindCommas (members.map fun m => member (.string m.1) m.2) ++ .rightBrace :: rest) =
      skip levels .behind rest := by
  induction members with
  | nil => simp [behindCommas, skip]
  | cons m ms ih =>
    have hms := ih fun k hk => h k (.tail _ hk)
    simp only [List.map_cons, behindCommas_cons, member, List.cons_append, List.append_assoc, skip]
    rw [h m (.head _)]
    exact hms

theorem passed_object {members : List (List UInt8 × List Token)}
    (h : ∀ m ∈ members, Passed m.2) :
    Passed (object (members.map fun m => member (.string m.1) m.2)) := by
  intro levels rest
  cases members with
  | nil => simp [object, separated, skip]
  | cons m ms =>
    have hms := passed_members (fun k hk => h k (.tail _ hk)) levels rest
    simp only [object, List.map_cons, separated_cons, member, List.cons_append, List.append_assoc,
      List.nil_append, skip]
    rw [h m (.head _)]
    exact hms

theorem skip_value {ts : List Token} (h : IsValue ts) : Passed ts := by
  induction h with
  | list hvalues ih => exact passed_list hvalues ih
  | object _ _ ih => exact passed_object ih
  | _ => exact fun levels rest => by simp [skip]

/-- **Every value is passed over.** -/
theorem reads_skipValue {ts : List Token} (h : IsValue ts) : Reads skipValue ts () := by
  intro rest
  have hbehind := skip_value h [] rest
  simp [skipValue, hbehind, skip]

end PaxosLog.Wire
