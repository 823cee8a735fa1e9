import PaxosLog.Proofs.Json.Scan

/-!
# Texts in two parts

Most tokens tell by themselves where they end: a bracket, a separator, a word, a string with its
closing quote. Behind such a token the scanner starts afresh, so that a text whose last token is one
of them is scanned independently of what is appended to it (`scan_append`). A numeral goes on as
long as it can, and what is cut off has no end, but neither of them is the last token of a value in
brackets or quotes.
-/

namespace PaxosLog.Json

/-! ## Numerals that something stands behind -/

namespace Numeral

variable {text rest more : List UInt8}

theorem takeDigits_append {read ds : List Digit} (h : takeDigits read text = (ds, rest))
    (hne : rest ≠ []) : takeDigits read (text ++ more) = (ds, rest ++ more) := by
  induction text generalizing read with
  | nil =>
    cases h
    contradiction
  | cons b text ih =>
    unfold takeDigits at h
    rw [List.cons_append, takeDigits]
    cases hb : digit? b with
    | some d =>
      rw [hb] at h
      exact ih h
    | none =>
      rw [hb] at h
      cases h
      rfl

theorem digits?_append {ds : List Digit} (h : digits? text = some (ds, rest)) (hne : rest ≠ []) :
    digits? (text ++ more) = some (ds, rest ++ more) := by
  unfold digits? at h ⊢
  split at h
  · cases h
  · rename_i hnil htake
    cases h
    rw [takeDigits_append htake hne]
    cases ds with
    | nil => exact (hnil rfl).elim
    | cons d ds => rfl

theorem whole?_append {ds : List Digit} (h : whole? text = some (ds, rest)) (hne : rest ≠ []) :
    whole? (text ++ more) = some (ds, rest ++ more) := by
  unfold whole? at h ⊢
  split at h
  · cases h
  · rename_i d ds' rest' htake
    split at h
    · cases h
    · rename_i hzero
      cases h
      rw [takeDigits_append htake hne]
      simp [hzero]

theorem fraction?_append {f : Option (List Digit)} (h : fraction? text = some (f, rest))
    (hne : rest ≠ []) : fraction? (text ++ more) = some (f, rest ++ more) := by
  unfold fraction? at h
  split at h
  · rename_i text'
    obtain ⟨⟨ds, rest'⟩, hds, heq⟩ := Option.map_eq_some_iff.mp h
    cases heq
    simp [fraction?, digits?_append hds hne]
  · rename_i hpoint
    cases h
    obtain ⟨b, text', rfl⟩ := List.exists_cons_of_ne_nil hne
    have hb : b ≠ 0x2e := by
      rintro rfl
      exact hpoint text' rfl
    simp [fraction?, hb]

theorem sign_append {s : Option Sign} (h : sign text = (s, rest)) (hne : rest ≠ []) :
    sign (text ++ more) = (s, rest ++ more) := by
  unfold sign at h
  split at h
  · cases h; rfl
  · cases h; rfl
  · rename_i hplus hminus
    cases h
    obtain ⟨b, text', rfl⟩ := List.exists_cons_of_ne_nil hne
    have hp : b ≠ 0x2b := by
      rintro rfl
      exact hplus text' rfl
    have hm : b ≠ 0x2d := by
      rintro rfl
      exact hminus text' rfl
    simp [sign, hp, hm]

theorem exponent?_append {e : Option Exponent} (h : exponent? text = some (e, rest))
    (hne : rest ≠ []) : exponent? (text ++ more) = some (e, rest ++ more) := by
  unfold exponent? at h
  split at h
  · cases h
    contradiction
  · rename_i b text'
    rw [List.cons_append, exponent?]
    split at h
    · rename_i hmark
      rw [if_pos hmark]
      obtain ⟨s, rest₁, hs⟩ : ∃ s rest₁, sign text' = (s, rest₁) := ⟨_, _, rfl⟩
      rw [hs] at h
      obtain ⟨⟨ds, rest'⟩, hds, heq⟩ := Option.map_eq_some_iff.mp h
      cases heq
      have hne₁ : rest₁ ≠ [] := by
        rintro rfl
        cases hds
      rw [sign_append hs hne₁]
      simp only [digits?_append hds hne, Option.map_some]
    · rename_i hmark
      rw [if_neg hmark]
      cases h
      rfl

theorem unsigned?_append {negative : Bool} {n : Numeral}
    (h : unsigned? negative text = some (n, rest)) (hne : rest ≠ []) :
    unsigned? negative (text ++ more) = some (n, rest ++ more) := by
  unfold unsigned? at h ⊢
  obtain ⟨⟨whole, rest₁⟩, hwhole, h⟩ := Option.bind_eq_some_iff.mp h
  obtain ⟨⟨fraction, rest₂⟩, hfraction, h⟩ := Option.bind_eq_some_iff.mp h
  obtain ⟨⟨exponent, rest₃⟩, hexponent, h⟩ := Option.bind_eq_some_iff.mp h
  cases h
  -- What is left at the end was left after every part.
  have hne₂ : rest₂ ≠ [] := by
    rintro rfl
    cases hexponent
    contradiction
  have hne₁ : rest₁ ≠ [] := by
    rintro rfl
    cases hfraction
    contradiction
  rw [whole?_append hwhole hne₁]
  simp only [Option.bind_eq_bind, Option.bind_some]
  rw [fraction?_append hfraction hne₂]
  simp only [Option.bind_some]
  rw [exponent?_append hexponent hne]
  rfl

/-- A numeral that ends before the text does is read in every longer text. -/
theorem scan?_append {n : Numeral} (h : scan? text = some (n, rest)) (hne : rest ≠ []) :
    scan? (text ++ more) = some (n, rest ++ more) := by
  unfold scan? at h
  split at h
  · exact unsigned?_append h hne
  · rename_i hminus
    cases text with
    | nil => cases h
    | cons b text' =>
      have hb : b ≠ 0x2d := by
        rintro rfl
        exact hminus text' rfl
      simpa [scan?, hb] using unsigned?_append h hne

/-! ### How much a numeral takes -/

theorem length_takeDigits (read : List Digit) (text : List UInt8) :
    (takeDigits read text).1.length + (takeDigits read text).2.length =
      read.length + text.length := by
  induction text generalizing read with
  | nil => simp [takeDigits]
  | cons b text ih =>
    unfold takeDigits
    cases digit? b with
    | none => simp
    | some d =>
      simp only [ih, List.length_cons]
      omega

theorem length_digits?_lt {ds : List Digit} (h : digits? text = some (ds, rest)) :
    rest.length < text.length := by
  have hlength := length_takeDigits [] text
  unfold digits? at h
  split at h
  · cases h
  · rename_i hnil htake
    cases h
    rw [htake] at hlength
    cases ds with
    | nil => exact (hnil rfl).elim
    | cons d ds =>
      simp only [List.length_cons, List.length_nil] at hlength
      omega

theorem length_whole?_lt {ds : List Digit} (h : whole? text = some (ds, rest)) :
    rest.length < text.length := by
  have hlength := length_takeDigits [] text
  unfold whole? at h
  split at h
  · cases h
  · rename_i d ds' rest' htake
    split at h
    · cases h
    · cases h
      rw [htake] at hlength
      simp only [List.length_cons, List.length_nil] at hlength
      omega

theorem length_fraction?_le {f : Option (List Digit)} (h : fraction? text = some (f, rest)) :
    rest.length ≤ text.length := by
  unfold fraction? at h
  split at h
  · obtain ⟨⟨ds, rest'⟩, hds, heq⟩ := Option.map_eq_some_iff.mp h
    cases heq
    have hlt := length_digits?_lt hds
    simp only [List.length_cons]
    omega
  · cases h
    exact Nat.le_refl _

theorem length_sign_le (text : List UInt8) : (sign text).2.length ≤ text.length := by
  unfold sign
  split <;> simp

theorem length_exponent?_le {e : Option Exponent} (h : exponent? text = some (e, rest)) :
    rest.length ≤ text.length := by
  unfold exponent? at h
  split at h
  · cases h
    exact Nat.le_refl _
  · rename_i b text'
    split at h
    · have hsign := length_sign_le text'
      obtain ⟨s, rest₁, hs⟩ : ∃ s rest₁, sign text' = (s, rest₁) := ⟨_, _, rfl⟩
      rw [hs] at h hsign
      obtain ⟨⟨ds, rest'⟩, hds, heq⟩ := Option.map_eq_some_iff.mp h
      cases heq
      have hlt := length_digits?_lt hds
      simp only [List.length_cons] at hsign ⊢
      omega
    · cases h
      exact Nat.le_refl _

theorem length_unsigned?_lt {negative : Bool} {n : Numeral}
    (h : unsigned? negative text = some (n, rest)) : rest.length < text.length := by
  unfold unsigned? at h
  obtain ⟨⟨whole, rest₁⟩, hwhole, h⟩ := Option.bind_eq_some_iff.mp h
  obtain ⟨⟨fraction, rest₂⟩, hfraction, h⟩ := Option.bind_eq_some_iff.mp h
  obtain ⟨⟨exponent, rest₃⟩, hexponent, h⟩ := Option.bind_eq_some_iff.mp h
  cases h
  calc rest.length ≤ rest₂.length := length_exponent?_le hexponent
    _ ≤ rest₁.length := length_fraction?_le hfraction
    _ < text.length := length_whole?_lt hwhole

theorem length_scan?_lt {n : Numeral} (h : scan? text = some (n, rest)) :
    rest.length < text.length := by
  unfold scan? at h
  split at h
  · have hlt := length_unsigned?_lt h
    simp only [List.length_cons]
    omega
  · exact length_unsigned?_lt h

end Numeral

/-! ## Tokens that something stands behind -/

section

variable {text rest more : List UInt8} {t : Token}

theorem scanString_append {read body : List UInt8}
    (h : scanString read text = (.string body, rest)) :
    scanString read (text ++ more) = (.string body, rest ++ more) := by
  fun_induction scanString read text with
  | case1 read => cases h
  | case2 read text =>
    cases h
    rfl
  | case3 read a b c d text hhex ih => simpa [scanString, hhex] using ih h
  | case4 => cases h
  | case5 read e text hcode hshort ih =>
    have hu : e ≠ 0x75 := by rintro rfl; exact absurd hshort (by decide)
    simpa [scanString, hu, hshort] using ih h
  | case6 => cases h
  | case7 => cases h
  | case8 read b text hquote hcode hescape hplain ih =>
    simp only [Bool.or_eq_true, decide_eq_true_eq, not_or] at hplain
    obtain ⟨hlow, hslash⟩ := hplain
    have hq : b ≠ 0x22 := hquote
    simpa [scanString, hq, hslash, hlow] using ih h

/-- A string ends with its quote or goes wrong. -/
theorem scanString_cases (read text : List UInt8) :
    (∃ body, (scanString read text).1 = .string body ∧
      (scanString read text).2.length < text.length) ∨
    ∃ body, scanString read text = (.unclosed body, []) := by
  fun_induction scanString read text with
  | case1 read => exact .inr ⟨_, rfl⟩
  | case2 read text => exact .inl ⟨_, rfl, by simp⟩
  | case3 read a b c d text hhex ih =>
    exact ih.imp_left fun ⟨body, h, hlt⟩ => ⟨body, h, by simp only [List.length_cons]; omega⟩
  | case4 => exact .inr ⟨_, rfl⟩
  | case5 read e text hcode hshort ih =>
    exact ih.imp_left fun ⟨body, h, hlt⟩ => ⟨body, h, by simp only [List.length_cons]; omega⟩
  | case6 => exact .inr ⟨_, rfl⟩
  | case7 => exact .inr ⟨_, rfl⟩
  | case8 read b text hquote hcode hescape hplain ih =>
    exact ih.imp_left fun ⟨body, h, hlt⟩ => ⟨body, h, by simp only [List.length_cons]; omega⟩

namespace Token

/-- A token that tells where it ends. -/
def isClosed : Token → Bool
  | .number _ => false
  | .unclosed _ => false
  | .garbage => false
  | _ => true

end Token

theorem scanWord_append {word : String} {u : Token} (h : scanWord word u text = (t, rest))
    (hend : t.isClosed = true ∨ rest ≠ []) :
    scanWord word u (text ++ more) = (t, rest ++ more) := by
  unfold scanWord at h ⊢
  split at h
  · rename_i hword
    cases h
    have hlength : word.length ≤ text.length := by
      simpa [ascii, String.length_toList] using hword.length_le
    rw [if_pos (hword.trans (List.prefix_append _ _)), List.drop_append_of_le_length hlength]
  · cases h
    simp [Token.isClosed] at hend

/-- The first byte decides what kind of token is scanned. -/
theorem scanToken_cases (b : UInt8) :
    (∃ t, ∀ text, scanToken (b :: text) = (t, text)) ∨
    (∀ text, scanToken (b :: text) = scanString [] text) ∨
    (∃ word t, word.length ≠ 0 ∧ ∀ text, scanToken (b :: text) = scanWord word t (b :: text)) ∨
    ∀ text, scanToken (b :: text) =
      match Numeral.scan? (b :: text) with
      | some (n, rest) => (.number n, rest)
      | none => (.garbage, []) := by
  by_cases h₁ : b = 0x7b
  · exact .inl ⟨.leftBrace, fun _ => h₁ ▸ rfl⟩
  by_cases h₂ : b = 0x7d
  · exact .inl ⟨.rightBrace, fun _ => h₂ ▸ rfl⟩
  by_cases h₃ : b = 0x5b
  · exact .inl ⟨.leftBracket, fun _ => h₃ ▸ rfl⟩
  by_cases h₄ : b = 0x5d
  · exact .inl ⟨.rightBracket, fun _ => h₄ ▸ rfl⟩
  by_cases h₅ : b = 0x2c
  · exact .inl ⟨.comma, fun _ => h₅ ▸ rfl⟩
  by_cases h₆ : b = 0x3a
  · exact .inl ⟨.colon, fun _ => h₆ ▸ rfl⟩
  by_cases h₇ : b = 0x22
  · exact .inr (.inl fun _ => h₇ ▸ rfl)
  by_cases h₈ : b = 0x6e
  · exact .inr (.inr (.inl ⟨"null", .null, by decide, fun _ => h₈ ▸ rfl⟩))
  by_cases h₉ : b = 0x74
  · exact .inr (.inr (.inl ⟨"true", .boolean true, by decide, fun _ => h₉ ▸ rfl⟩))
  by_cases h₁₀ : b = 0x66
  · exact .inr (.inr (.inl ⟨"false", .boolean false, by decide, fun _ => h₁₀ ▸ rfl⟩))
  refine .inr (.inr (.inr fun text => ?_))
  exact (if_neg h₁).trans <| (if_neg h₂).trans <| (if_neg h₃).trans <| (if_neg h₄).trans <|
    (if_neg h₅).trans <| (if_neg h₆).trans <| (if_neg h₇).trans <| (if_neg h₈).trans <|
    (if_neg h₉).trans <| if_neg h₁₀

/-- **A token with an end is scanned without a look at what follows.** It has one if it tells so, or
if something stands behind it. -/
theorem scanToken_append (h : scanToken text = (t, rest))
    (hend : t.isClosed = true ∨ rest ≠ []) : scanToken (text ++ more) = (t, rest ++ more) := by
  cases text with
  | nil =>
    cases h
    simp [Token.isClosed] at hend
  | cons b text =>
    rw [List.cons_append]
    rcases scanToken_cases b with ⟨u, hu⟩ | hstring | ⟨word, u, -, hword⟩ | hnumber
    · rw [hu] at h ⊢
      cases h
      rfl
    · rw [hstring] at h ⊢
      rcases scanString_cases [] text with ⟨body, hbody, -⟩ | ⟨body, hbody⟩
      · rw [h] at hbody
        cases hbody
        exact scanString_append h
      · rw [hbody] at h
        cases h
        simp [Token.isClosed] at hend
    · rw [hword] at h ⊢
      exact scanWord_append h hend
    · rw [hnumber] at h ⊢
      split at h
      · rename_i n _ hscan
        cases h
        have happend : Numeral.scan? (b :: text ++ more) = some (n, rest ++ more) :=
          Numeral.scan?_append hscan (hend.resolve_left (by simp [Token.isClosed]))
        rw [List.cons_append] at happend
        rw [happend]
      · cases h
        simp [Token.isClosed] at hend

/-- Every token takes something off its text. -/
theorem length_scanToken_lt (b : UInt8) (text : List UInt8) :
    (scanToken (b :: text)).2.length < (b :: text).length := by
  rcases scanToken_cases b with ⟨u, hu⟩ | hstring | ⟨word, u, hne, hword⟩ | hnumber
  · simp [hu]
  · rw [hstring]
    rcases scanString_cases [] text with ⟨body, -, hlt⟩ | ⟨body, hbody⟩
    · simp only [List.length_cons]
      omega
    · simp [hbody]
  · rw [hword, scanWord]
    split
    · simp only [List.length_drop, List.length_cons]
      omega
    · simp
  · rw [hnumber]
    split
    · rename_i n rest hscan
      exact Numeral.length_scan?_lt hscan
    · simp

end

/-! ## Whole texts -/

/-- The scanner may go on for as long as it likes, once there is a step for every byte. -/
theorem scanUpTo_eq {count : Nat} {text : List UInt8} (hcount : text.length ≤ count)
    (read : List Token) : scanUpTo read count text = read.reverse ++ scan text := by
  induction count using Nat.strong_induction_on generalizing text read with
  | _ count ih =>
    cases hdrop : text.dropWhile isBlank with
    | nil =>
      have hnil : ∀ read n, scanUpTo read n text = read.reverse := by
        intro read n
        cases n <;> simp [scanUpTo, hdrop]
      simp [scan, hnil]
    | cons b rest =>
      have hsub : (b :: rest).length ≤ text.length := hdrop ▸ (List.dropWhile_sublist _).length_le
      have hlt := length_scanToken_lt b rest
      obtain ⟨n, hn⟩ : ∃ n, text.length = n + 1 := ⟨text.length - 1, by simp at hsub; omega⟩
      obtain ⟨m, rfl⟩ : ∃ m, count = m + 1 := ⟨count - 1, by omega⟩
      have hleft : (scanToken (b :: rest)).2.length ≤ m := by omega
      have hright : (scanToken (b :: rest)).2.length ≤ n := by omega
      simp only [scan, hn, scanUpTo, hdrop]
      rw [ih m (by omega) hleft, ih n (by omega) hright]
      simp

/-- A text of blanks has no tokens. -/
theorem scan_of_blank {text : List UInt8} (h : text.dropWhile isBlank = []) : scan text = [] := by
  unfold scan
  cases text.length <;> simp [scanUpTo, h]

section

variable {text rest rest' : List UInt8} {b : UInt8} {t : Token}

/-- A text that is not blank has a first token and the tokens behind it. -/
theorem scan_of_cons (h : text.dropWhile isBlank = b :: rest)
    (ht : scanToken (b :: rest) = (t, rest')) : scan text = t :: scan rest' := by
  have hsub : (b :: rest).length ≤ text.length := h ▸ (List.dropWhile_sublist _).length_le
  have hlt := length_scanToken_lt b rest
  rw [ht] at hlt
  obtain ⟨n, hn⟩ : ∃ n, text.length = n + 1 := ⟨text.length - 1, by simp at hsub; omega⟩
  simp only [scan, hn, scanUpTo, h, ht]
  rw [scanUpTo_eq (by simp only at hlt; omega)]
  rfl

theorem scan_eq_nil_iff : scan text = [] ↔ ∀ b ∈ text, isBlank b = true := by
  rw [← List.dropWhile_eq_nil_iff]
  constructor
  · intro h
    cases hdrop : text.dropWhile isBlank with
    | nil => rfl
    | cons b rest =>
      rw [scan_of_cons hdrop rfl] at h
      cases h
  · exact scan_of_blank

/-- Blanks in front of a text do not count. -/
theorem scan_blanks_append {blanks : List UInt8} (h : ∀ b ∈ blanks, isBlank b = true)
    (text : List UInt8) : scan (blanks ++ text) = scan text := by
  have hdrop : (blanks ++ text).dropWhile isBlank = text.dropWhile isBlank :=
    List.dropWhile_append_of_pos h
  cases htext : text.dropWhile isBlank with
  | nil => rw [scan_of_blank (hdrop.trans htext), scan_of_blank htext]
  | cons b rest => rw [scan_of_cons (hdrop.trans htext) rfl, scan_of_cons htext rfl]

/-- A first token with an end is the first token of every longer text. -/
theorem scan_append_of_cons (h : text.dropWhile isBlank = b :: rest)
    (ht : scanToken (b :: rest) = (t, rest')) (hend : t.isClosed = true ∨ rest' ≠ [])
    (more : List UInt8) : scan (text ++ more) = t :: scan (rest' ++ more) := by
  have hdrop : (text ++ more).dropWhile isBlank = b :: (rest ++ more) := by
    rw [List.dropWhile_append, h]
    rfl
  exact scan_of_cons hdrop (scanToken_append ht hend)

/-- **Behind a token with an end the scanner starts afresh.** -/
theorem scan_append {us : List Token} (h : scan text = us ++ [t]) (ht : t.isClosed = true)
    (more : List UInt8) : scan (text ++ more) = scan text ++ scan more := by
  induction us generalizing text with
  | nil =>
    cases hdrop : text.dropWhile isBlank with
    | nil =>
      rw [scan_of_blank hdrop] at h
      cases h
    | cons b rest =>
      obtain ⟨u, rest', hu⟩ : ∃ u rest', scanToken (b :: rest) = (u, rest') := ⟨_, _, rfl⟩
      rw [scan_of_cons hdrop hu] at h ⊢
      obtain ⟨rfl, hrest⟩ := List.cons.inj h
      rw [scan_append_of_cons hdrop hu (.inl ht), hrest,
        scan_blanks_append (scan_eq_nil_iff.mp hrest)]
      rfl
  | cons u us ih =>
    cases hdrop : text.dropWhile isBlank with
    | nil =>
      rw [scan_of_blank hdrop] at h
      cases h
    | cons b rest =>
      obtain ⟨u', rest', hu⟩ : ∃ u rest', scanToken (b :: rest) = (u, rest') := ⟨_, _, rfl⟩
      rw [scan_of_cons hdrop hu] at h ⊢
      obtain ⟨-, hrest⟩ := List.cons.inj h
      have hne : rest' ≠ [] := by
        rintro rfl
        cases us <;> cases hrest
      rw [scan_append_of_cons hdrop hu (.inr hne), ih hrest]
      rfl

end

end PaxosLog.Json
