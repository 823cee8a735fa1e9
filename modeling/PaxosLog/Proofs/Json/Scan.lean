import Mathlib.Data.List.Chain
import Mathlib.Data.List.TakeWhile
import PaxosLog.Json.Token
import PaxosLog.Proofs.Json.Numeral

/-!
# Texts and their tokens

`Spells text ts` says that a text consists of the tokens `ts`, with any blanks before, between and
behind them. Such a text is scanned into just these tokens (`scan_of_spells`): no token is cut
short, and none runs into the next. Two numerals must therefore be kept apart, which is all that
`render`, which writes no blanks, asks of its tokens (`Neat`, `spells_render`).

| token | what may stand behind it |
|---|---|
| number | nothing that goes on with a numeral |
| any other | anything |
-/

namespace PaxosLog.Json

open Numeral (Ends)

/-! ## Strings -/

/-- A byte that stands for itself in a string. -/
def isPlain (b : UInt8) : Bool := 0x20 ≤ b && b ≠ 0x22 && b ≠ 0x5c

/-- What may stand between the quotes of a string. -/
inductive IsBody : List UInt8 → Prop
  | nil : IsBody []
  | plain {b : UInt8} {bs : List UInt8} (hb : isPlain b) (h : IsBody bs) : IsBody (b :: bs)
  | short {e : UInt8} {bs : List UInt8} (he : isShortEscape e) (h : IsBody bs) :
      IsBody (0x5c :: e :: bs)
  | code {a b c d : UInt8} {bs : List UInt8} (hhex : isHex a && isHex b && isHex c && isHex d)
      (h : IsBody bs) : IsBody (0x5c :: 0x75 :: a :: b :: c :: d :: bs)

theorem isBody_of_plain {body : List UInt8} (h : ∀ b ∈ body, isPlain b) : IsBody body := by
  induction body with
  | nil => exact .nil
  | cons b bs ih => exact .plain (h b (by simp)) (ih fun c hc => h c (by simp [hc]))

theorem scanString_body {body : List UInt8} (h : IsBody body) (read rest : List UInt8) :
    scanString read (body ++ 0x22 :: rest) = (.string (read.reverse ++ body), rest) := by
  induction h generalizing read with
  | nil => simp [scanString]
  | @plain b bs hb _ ih =>
    simp only [isPlain, Bool.and_eq_true, decide_eq_true_eq, ne_eq] at hb
    obtain ⟨⟨hlow, hquote⟩, hslash⟩ := hb
    simp [scanString, hslash, UInt8.not_lt.mpr hlow, ih]
  | @short e bs he _ ih =>
    have hu : e ≠ 0x75 := by rintro rfl; exact absurd he (by decide)
    simp [scanString, hu, he, ih]
  | code hhex _ ih => simp [scanString, hhex, ih]

/-! ## Tokens -/

namespace Token

/-- A token that a text can hold. -/
def Proper : Token → Prop
  | .number n => n.wellFormed
  | .string body => IsBody body
  | .unclosed _ => False
  | .garbage => False
  | _ => True

/-- A numeral. -/
def isNumber : Token → Bool
  | .number _ => true
  | _ => false

end Token

/-- A numeral starts with a minus sign or a digit. -/
theorem Numeral.bytes_cons {n : Numeral} (hn : n.wellFormed) :
    ∃ b bs, n.bytes = b :: bs ∧ 0x2d ≤ b ∧ b ≤ 0x39 := by
  rw [bytes_eq]
  obtain ⟨d, ds, hd⟩ := List.exists_cons_of_ne_nil ((wellFormed_iff n).mp hn).1
  cases n.negative with
  | true => exact ⟨_, _, rfl, by decide⟩
  | false => exact ⟨Decimal.ascii d, _, by rw [hd]; rfl, by clear hd; revert d; decide⟩

/-- A token is scanned as it was written. -/
theorem scanToken_bytes {t : Token} (ht : t.Proper) {rest : List UInt8}
    (hn : t.isNumber → Ends rest) : scanToken (t.bytes ++ rest) = (t, rest) := by
  cases t with
  | leftBrace => rfl
  | rightBrace => rfl
  | leftBracket => rfl
  | rightBracket => rfl
  | comma => rfl
  | colon => rfl
  | null => rfl
  | boolean b => cases b <;> rfl
  | string body => simpa [scanToken, Token.bytes] using scanString_body ht [] rest
  | number n =>
    have hscan := Numeral.scan?_bytes ht (hn rfl)
    obtain ⟨b, bs, hb, hlow, hhigh⟩ := Numeral.bytes_cons ht
    have hother : b ≠ 0x7b ∧ b ≠ 0x7d ∧ b ≠ 0x5b ∧ b ≠ 0x5d ∧ b ≠ 0x2c ∧ b ≠ 0x3a ∧ b ≠ 0x22 ∧
        b ≠ 0x6e ∧ b ≠ 0x74 ∧ b ≠ 0x66 := by grind
    rw [hb, List.cons_append] at hscan
    simp [Token.bytes, hb, scanToken, hother, hscan]
  | unclosed body => exact ht.elim
  | garbage => exact ht.elim

/-- No token starts with a blank. -/
theorem Token.bytes_cons {t : Token} (ht : t.Proper) :
    ∃ b bs, t.bytes = b :: bs ∧ isBlank b = false := by
  cases t with
  | boolean b => cases b <;> exact ⟨_, _, rfl, rfl⟩
  | number n =>
    obtain ⟨b, bs, hb, hlow, hhigh⟩ := Numeral.bytes_cons ht
    refine ⟨b, bs, hb, ?_⟩
    have hother : b ≠ 0x20 ∧ b ≠ 0x09 ∧ b ≠ 0x0a ∧ b ≠ 0x0d := by grind
    simp [isBlank, hother]
  | unclosed body => exact ht.elim
  | garbage => exact ht.elim
  | _ => exact ⟨_, _, rfl, rfl⟩

/-- A token that is no numeral does not go on with one. -/
theorem Token.ends_bytes {t : Token} (ht : t.Proper) (hn : t.isNumber = false)
    (rest : List UInt8) : Ends (t.bytes ++ rest) := by
  cases t with
  | boolean b => cases b <;> exact Numeral.ends_cons rfl (by decide) (by decide) (by decide)
  | number n => cases hn
  | unclosed body => exact ht.elim
  | garbage => exact ht.elim
  | _ => exact Numeral.ends_cons rfl (by decide) (by decide) (by decide)

/-! ## Texts -/

/-- A text of tokens with any blanks around them. What stands behind a numeral does not go on with
it. -/
inductive Spells : List UInt8 → List Token → Prop
  | nil {blanks : List UInt8} (hb : ∀ b ∈ blanks, isBlank b) : Spells blanks []
  | cons {blanks rest : List UInt8} {t : Token} {ts : List Token} (hb : ∀ b ∈ blanks, isBlank b)
      (ht : t.Proper) (hn : t.isNumber → Ends rest) (h : Spells rest ts) :
      Spells (blanks ++ (t.bytes ++ rest)) (t :: ts)

theorem scanUpTo_of_spells {text : List UInt8} {ts : List Token} (h : Spells text ts) {count : Nat}
    (hcount : ts.length ≤ count) (read : List Token) :
    scanUpTo read count text = read.reverse ++ ts := by
  induction h generalizing count read with
  | @nil blanks hb =>
    cases count with
    | zero => simp [scanUpTo]
    | succ count => simp [scanUpTo, List.dropWhile_eq_nil_iff.mpr hb]
  | @cons blanks rest t ts hb ht hn _ ih =>
    obtain ⟨count, rfl⟩ := Nat.exists_eq_add_of_lt (show 0 < count by simp at hcount; omega)
    have hscan := scanToken_bytes ht hn
    obtain ⟨b, bs, hbs, hblank⟩ := Token.bytes_cons ht
    rw [hbs, List.cons_append] at hscan
    have hdrop : (blanks ++ (t.bytes ++ rest)).dropWhile isBlank = b :: (bs ++ rest) := by
      rw [List.dropWhile_append_of_pos hb, hbs, List.cons_append,
        List.dropWhile_cons_of_neg (by simp [hblank])]
    simp only [Nat.zero_add, scanUpTo, hdrop, hscan]
    rw [ih (by simpa using hcount) (t :: read)]
    simp

theorem Spells.length_le {text : List UInt8} {ts : List Token} (h : Spells text ts) :
    ts.length ≤ text.length := by
  induction h with
  | nil => simp
  | cons _ ht _ _ ih =>
    obtain ⟨b, bs, hbs, -⟩ := Token.bytes_cons ht
    simp only [List.length_append, List.length_cons, hbs]
    omega

/-- A text is scanned into the tokens that it consists of. -/
theorem scan_of_spells {text : List UInt8} {ts : List Token} (h : Spells text ts) :
    scan text = ts :=
  scanUpTo_of_spells h h.length_le []

/-! ## Texts without blanks -/

/-- Tokens that keep apart without a blank between them. -/
def Fits (t u : Token) : Prop := t.isNumber → u.isNumber = false

/-- Tokens that can be written one behind the other. -/
def Neat (ts : List Token) : Prop := (∀ t ∈ ts, t.Proper) ∧ ts.IsChain Fits

theorem spells_render {ts : List Token} (h : Neat ts) : Spells (render ts) ts := by
  induction ts with
  | nil => exact .nil (by simp [render])
  | cons t ts ih =>
    obtain ⟨hproper, hchain⟩ := h
    have hrest : Spells (render ts) ts :=
      ih ⟨fun u hu => hproper u (by simp [hu]), hchain.tail⟩
    refine @Spells.cons [] _ t ts (by simp) (hproper t (by simp)) (fun ht => ?_) hrest
    cases ts with
    | nil => exact Numeral.ends_nil
    | cons u us =>
      have hfits : u.isNumber = false := (List.isChain_cons_cons.mp hchain).1 ht
      exact Token.ends_bytes (hproper u (by simp)) hfits _

/-- A token that is no numeral keeps what stands before it and behind it apart. -/
theorem neat_append_cons {ts us : List Token} {t : Token} (hn : t.isNumber = false) :
    Neat (ts ++ t :: us) ↔ Neat ts ∧ t.Proper ∧ Neat us := by
  simp only [Neat, List.isChain_append, List.isChain_cons, List.mem_append, List.mem_cons, Fits]
  grind

/-- Another token of the same kind stands as neatly in its place. -/
theorem neat_replace {ts us : List Token} {t u : Token} (h : Neat (ts ++ t :: us)) (hu : u.Proper)
    (hn : u.isNumber = t.isNumber) : Neat (ts ++ u :: us) := by
  simp only [Neat, List.isChain_append, List.isChain_cons, List.mem_append, List.mem_cons, Fits]
    at h ⊢
  grind

end PaxosLog.Json
