import Mathlib.Data.List.Induction
import PaxosLog.Json.Number

/-!
# Numerals read back

A numeral that is written out is read back as it is (`Numeral.scan?_bytes`), as long as what stands
behind it does not go on with it: the scanner takes as many bytes as it can, so a digit, a point or
the mark of an exponent right behind a numeral would become part of it. The numerals that are
written for the whole numbers of 64 bits also get their value back
(`Numeral.toNumber?_ofNat`), and no other numeral stands for a whole number from zero on
(`Numeral.toNumber?_eq_natural`).
-/

namespace PaxosLog.Decimal

theorem value_pos {ds : List Digit} (hds : ds ≠ []) (hhead : ∀ d ∈ ds.head?, d ≠ 0) :
    0 < value ds := by
  obtain ⟨d, ds, rfl⟩ := List.exists_cons_of_ne_nil hds
  have hd : 0 < d.val := Nat.pos_of_ne_zero fun h => hhead d rfl (Fin.ext h)
  rw [value_cons]
  exact Nat.add_pos_left (Nat.mul_pos hd (Nat.pow_pos (by decide))) _

/-- Digits without a superfluous zero are those of the number that they stand for. -/
theorem digitsBefore_value {ds : List Digit} (hds : ds ≠ [])
    (hzero : ∀ d ∈ ds.head?, d = 0 → ds.tail = []) (tail : List Digit) {count : Nat}
    (hcount : value ds < count) : digitsBefore tail count (value ds) = ds ++ tail := by
  induction ds using List.reverseRecOn generalizing tail count with
  | nil => contradiction
  | append_singleton front d ih =>
    obtain ⟨count, rfl⟩ := Nat.exists_eq_succ_of_ne_zero (Nat.ne_of_gt (Nat.zero_lt_of_lt hcount))
    have hvalue : value (front ++ [d]) = 10 * value front + d.val := by
      simp [value, List.foldl_append]
    have hmod : (10 * value front + d.val) % 10 = d.val := by omega
    have hdiv : (10 * value front + d.val) / 10 = value front := by omega
    simp only [hvalue, digitsBefore, hmod, hdiv, Fin.eta] at hcount ⊢
    cases front with
    | nil => simp [value]
    | cons c cs =>
      -- A first digit of several is not zero, so there is more than one round.
      have hc : ∀ b ∈ (c :: cs).head?, b ≠ 0 := by
        rintro b ⟨⟩ hb
        simpa using hzero c rfl hb
      have hpos := value_pos (List.cons_ne_nil c cs) hc
      rw [if_neg (by omega), ih (by simp) (fun b hb h => absurd h (hc b hb)) _ (by omega)]
      simp

theorem digits_value {ds : List Digit} (hds : ds ≠ [])
    (hzero : ∀ d ∈ ds.head?, d = 0 → ds.tail = []) : digits (value ds) = ds := by
  simpa [digits] using digitsBefore_value hds hzero [] (Nat.lt_succ_self _)

end PaxosLog.Decimal

namespace PaxosLog.Json.Numeral

/-! ## Digits -/

@[simp] theorem digit?_ascii (d : Digit) : digit? (Decimal.ascii d) = some d := by
  revert d
  decide

/-- No digit is a sign. -/
theorem ascii_ne_mark (d : Digit) : Decimal.ascii d ≠ 0x2b ∧ Decimal.ascii d ≠ 0x2d := by
  revert d
  decide

/-- A text that does not go on with a digit. -/
def NoDigit (text : List UInt8) : Prop := ∀ b ∈ text.head?, digit? b = none

theorem takeDigits_of_noDigit (read : List Digit) {text : List UInt8} (h : NoDigit text) :
    takeDigits read text = (read.reverse, text) := by
  cases text with
  | nil => rfl
  | cons b rest => simp [takeDigits, h b rfl]

theorem takeDigits_ascii (read ds : List Digit) {rest : List UInt8} (h : NoDigit rest) :
    takeDigits read (ds.map Decimal.ascii ++ rest) = (read.reverse ++ ds, rest) := by
  induction ds generalizing read with
  | nil => simpa using takeDigits_of_noDigit read h
  | cons d ds ih => simp [takeDigits, ih]

theorem digits?_ascii {ds : List Digit} {rest : List UInt8} (hds : ds ≠ []) (h : NoDigit rest) :
    digits? (ds.map Decimal.ascii ++ rest) = some (ds, rest) := by
  cases ds with
  | nil => contradiction
  | cons d ds => rw [digits?, takeDigits_ascii [] _ h]; rfl

/-- The whole part of a numeral as it must be. -/
theorem whole?_ascii {ds : List Digit} {rest : List UInt8} (hds : ds ≠ [])
    (hzero : ∀ d ∈ ds.head?, d = 0 → ds.tail = []) (h : NoDigit rest) :
    whole? (ds.map Decimal.ascii ++ rest) = some (ds, rest) := by
  cases ds with
  | nil => contradiction
  | cons d ds =>
    rw [whole?, takeDigits_ascii [] _ h]
    simpa using hzero d rfl

/-! ## Parts -/

/-- A text that does not go on with the numeral in front of it. -/
def Ends (text : List UInt8) : Prop :=
  ∀ b ∈ text.head?, digit? b = none ∧ b ≠ 0x2e ∧ b ≠ 0x65 ∧ b ≠ 0x45

theorem Ends.noDigit {text : List UInt8} (h : Ends text) : NoDigit text := fun b hb => (h b hb).1

/-- A byte below the digits, or above them, ends a numeral if it is no mark of one. -/
theorem ends_cons {b : UInt8} {rest : List UInt8} (hd : digit? b = none) (hp : b ≠ 0x2e)
    (he : b ≠ 0x65) (hE : b ≠ 0x45) : Ends (b :: rest) := by
  rintro c ⟨⟩
  exact ⟨hd, hp, he, hE⟩

theorem ends_nil : Ends [] := by rintro b ⟨⟩

/-- The text of a fraction, if there is one. -/
def fractionBytes : Option (List Digit) → List UInt8
  | none => []
  | some ds => 0x2e :: ds.map Decimal.ascii

/-- The text of a sign, if there is one. -/
def signBytes : Option Sign → List UInt8
  | none => []
  | some .plus => [0x2b]
  | some .minus => [0x2d]

/-- The text of an exponent, if there is one. -/
def exponentBytes? : Option Exponent → List UInt8
  | none => []
  | some e => (if e.capital then 0x45 else 0x65) :: (signBytes e.sign ++ e.digits.map Decimal.ascii)

theorem bytes_eq (n : Numeral) :
    n.bytes = (if n.negative then [0x2d] else []) ++ (n.whole.map Decimal.ascii ++
      (fractionBytes n.fraction ++ exponentBytes? n.exponent)) := by
  obtain ⟨negative, whole, fraction, exponent⟩ := n
  rcases exponent with - | ⟨capital, - | - | -, digits⟩ <;> cases fraction <;>
    simp [bytes, exponentBytes, fractionBytes, signBytes, exponentBytes?]

theorem sign_signBytes (s : Option Sign) (d : Digit) (text : List UInt8) :
    sign (signBytes s ++ Decimal.ascii d :: text) = (s, Decimal.ascii d :: text) := by
  rcases s with - | - | -
  · simp [sign, signBytes, ascii_ne_mark d]
  · rfl
  · rfl

theorem exponent?_exponentBytes? {e : Option Exponent} {rest : List UInt8}
    (he : ∀ x ∈ e, x.digits ≠ []) (h : Ends rest) :
    exponent? (exponentBytes? e ++ rest) = some (e, rest) := by
  rcases e with - | ⟨capital, s, ds⟩
  · cases rest with
    | nil => rfl
    | cons b rest => simp [exponentBytes?, exponent?, h b rfl]
  · have hread := digits?_ascii (he _ rfl) h.noDigit
    obtain ⟨d, ds, rfl⟩ := List.exists_cons_of_ne_nil (he _ rfl)
    rw [List.map_cons, List.cons_append] at hread
    cases capital <;> simp [exponent?, exponentBytes?, sign_signBytes, hread]

theorem noDigit_exponentBytes? (e : Option Exponent) {rest : List UInt8} (h : Ends rest) :
    NoDigit (exponentBytes? e ++ rest) := by
  rcases e with - | ⟨- | -, s, ds⟩
  · exact h.noDigit
  · rintro b ⟨⟩; rfl
  · rintro b ⟨⟩; rfl

theorem noDigit_fractionBytes (f : Option (List Digit)) {rest : List UInt8} (h : NoDigit rest) :
    NoDigit (fractionBytes f ++ rest) := by
  cases f with
  | none => exact h
  | some ds => rintro b ⟨⟩; rfl

theorem fraction?_fractionBytes {f : Option (List Digit)} {rest : List UInt8}
    (hf : ∀ ds ∈ f, ds ≠ []) (h : NoDigit rest) (hp : ∀ b ∈ rest.head?, b ≠ 0x2e) :
    fraction? (fractionBytes f ++ rest) = some (f, rest) := by
  cases f with
  | some ds => simp [fraction?, fractionBytes, digits?_ascii (hf ds rfl) h]
  | none =>
    cases rest with
    | nil => rfl
    | cons b rest => simp [fraction?, fractionBytes, hp b rfl]

/-! ## Numerals -/

/-- What it takes for a numeral to be well-formed. -/
theorem wellFormed_iff (n : Numeral) :
    n.wellFormed ↔ n.whole ≠ [] ∧ (∀ d ∈ n.whole.head?, d = 0 → n.whole.tail = []) ∧
      (∀ ds ∈ n.fraction, ds ≠ []) ∧ ∀ e ∈ n.exponent, e.digits ≠ [] := by
  obtain ⟨negative, - | ⟨d, ds⟩, fraction, exponent⟩ := n
  · simp [wellFormed]
  · cases fraction <;> cases exponent <;> simp [wellFormed] <;> grind

theorem unsigned?_bytes {n : Numeral} (hn : n.wellFormed) {rest : List UInt8} (h : Ends rest) :
    unsigned? n.negative (n.whole.map Decimal.ascii ++ (fractionBytes n.fraction ++
      (exponentBytes? n.exponent ++ rest))) = some (n, rest) := by
  obtain ⟨hwhole, hzero, hfraction, hexponent⟩ := (wellFormed_iff n).mp hn
  have hnone := noDigit_exponentBytes? n.exponent h
  have hpoint : ∀ b ∈ (exponentBytes? n.exponent ++ rest).head?, b ≠ 0x2e := by
    rcases n.exponent with - | ⟨- | -, s, ds⟩
    · exact fun b hb => (h b hb).2.1
    · rintro b ⟨⟩; simp
    · rintro b ⟨⟩; simp
  rw [unsigned?, whole?_ascii hwhole hzero (noDigit_fractionBytes _ hnone)]
  simp only [Option.bind_eq_bind, Option.bind_some]
  rw [fraction?_fractionBytes hfraction hnone hpoint]
  simp only [Option.bind_some]
  rw [exponent?_exponentBytes? hexponent h]
  rfl

/-- A numeral is read back as it was written. -/
theorem scan?_bytes {n : Numeral} (hn : n.wellFormed) {rest : List UInt8} (h : Ends rest) :
    scan? (n.bytes ++ rest) = some (n, rest) := by
  have hread := unsigned?_bytes hn h
  rw [bytes_eq]
  cases hneg : n.negative with
  | true =>
    rw [hneg] at hread
    simpa [scan?] using hread
  | false =>
    rw [hneg] at hread
    obtain ⟨d, ds, hd⟩ := List.exists_cons_of_ne_nil ((wellFormed_iff n).mp hn).1
    rw [hd] at hread ⊢
    simpa [scan?, (ascii_ne_mark d).2] using hread

/-! ## Whole numbers -/

theorem ofNat_wellFormed (n : Nat) : (ofNat n).wellFormed := by
  rw [wellFormed_iff]
  rcases Nat.eq_zero_or_pos n with rfl | hn
  · simp [ofNat, Decimal.digits_zero]
  · obtain ⟨d, ds, hd, hne⟩ := Decimal.head_digits_ne_zero hn
    simp [ofNat, hd, hne]

/-- The numeral of a number stands for it. -/
theorem toNumber?_ofNat {n : Nat} (h : n < UInt64.size) :
    (ofNat n).toNumber? = some (.natural (UInt64.ofNat n)) := by
  simp [toNumber?, ofNat, Decimal.value_digits, h]

@[simp] theorem toNumber?_ofNat_toNat (n : UInt64) :
    (ofNat n.toNat).toNumber? = some (.natural n) := by
  rw [toNumber?_ofNat n.toNat_lt, UInt64.ofNat_toNat]

/-- A plain numeral, without sign, point and exponent, of a number below `limit`. -/
structure Below (n : Numeral) (limit : Nat) : Prop where
  unsigned : n.negative = false
  noPoint : n.fraction = none
  noExponent : n.exponent = none
  lt : Decimal.value n.whole < limit

theorem below_ofNat {k limit : Nat} (h : k < limit) : (ofNat k).Below limit :=
  ⟨rfl, rfl, rfl, by rwa [ofNat, Decimal.value_digits]⟩

/-- A plain numeral is the one that is written for its number. -/
theorem Below.eq_ofNat {n : Numeral} {limit : Nat} (h : n.Below limit) (hn : n.wellFormed) :
    n = ofNat (Decimal.value n.whole) := by
  obtain ⟨hwhole, hzero, -, -⟩ := (wellFormed_iff n).mp hn
  obtain ⟨negative, whole, fraction, exponent⟩ := n
  obtain ⟨rfl, rfl, rfl, -⟩ := h
  simp only at hwhole hzero
  simp only [ofNat, Decimal.digits_value hwhole hzero]

theorem real?_ne_natural (n : Numeral) (m : UInt64) : n.real? ≠ some (.natural m) := by
  simp [real?]

/-- The numerals that stand for whole numbers from zero on. -/
theorem toNumber?_eq_natural {n : Numeral} {m : UInt64} :
    n.toNumber? = some (.natural m) ↔
      n.Below UInt64.size ∧ m.toNat = Decimal.value n.whole := by
  constructor
  · intro h
    simp only [toNumber?] at h
    split at h
    · exact absurd h (n.real?_ne_natural m)
    · rename_i hplain
      simp only [not_or, Bool.not_eq_true, Option.isSome_eq_false_iff, Option.isNone_iff_eq_none]
        at hplain
      split at h
      · split at h
        · cases h
        · exact absurd h (n.real?_ne_natural m)
      · rename_i hsign
        split at h
        · rename_i hlt
          cases h
          exact ⟨⟨by simpa using hsign, hplain.1, hplain.2, hlt⟩,
            UInt64.toNat_ofNat_of_lt' hlt⟩
        · exact absurd h (n.real?_ne_natural m)
  · rintro ⟨⟨hsign, hpoint, hexponent, hlt⟩, hm⟩
    simp [toNumber?, hsign, hpoint, hexponent, ← hm, m.toNat_lt_size]

@[simp] theorem bytes_ofNat (n : Nat) : (ofNat n).bytes = Decimal.bytes n := by
  simp [bytes, ofNat, Decimal.bytes]

end PaxosLog.Json.Numeral
