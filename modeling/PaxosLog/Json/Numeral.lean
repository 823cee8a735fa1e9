import PaxosLog.Decimal

/-!
# Numerals

The numbers of JSON texts as they are written: a minus sign or none, whole digits without leading
zeros, and, where present, digits after a point and an exponent. `Numeral.bytes` writes a numeral,
and `Numeral.scan?` reads the one that a text starts with, taking as much as it can.

`Numeral.ofNat` is how numbers are written: every number of the wire format is a natural one.
-/

namespace PaxosLog.Json

/-- A sign in front of an exponent. -/
inductive Sign where
  | plus
  | minus
deriving DecidableEq, Repr

/-- An exponent as written. -/
structure Exponent where
  /-- The exponent starts with a capital letter. -/
  capital : Bool
  sign : Option Sign
  digits : List Digit
deriving DecidableEq, Repr

/-- A number as written. -/
structure Numeral where
  negative : Bool
  whole : List Digit
  fraction : Option (List Digit)
  exponent : Option Exponent
deriving DecidableEq, Repr

namespace Numeral

/-- The plain numeral of a natural number. -/
def ofNat (n : Nat) : Numeral := ⟨false, Decimal.digits n, none, none⟩

/-- The whole digits are there, and do not start with a superfluous zero; a point and an exponent
are followed by digits. -/
def wellFormed (n : Numeral) : Bool :=
  (match n.whole with
    | [] => false
    | d :: ds => d ≠ 0 || ds.isEmpty) &&
  n.fraction != some [] && n.exponent.all fun e => !e.digits.isEmpty

/-! ## Writing -/

/-- The text of an exponent. -/
def exponentBytes (e : Exponent) : List UInt8 :=
  let mark : List UInt8 :=
    match e.sign with
    | none => []
    | some .plus => [0x2b]
    | some .minus => [0x2d]
  (if e.capital then 0x45 else 0x65) :: mark ++ e.digits.map Decimal.ascii

/-- The text of a numeral. -/
def bytes (n : Numeral) : List UInt8 :=
  let minus : List UInt8 := if n.negative then [0x2d] else []
  let fraction : List UInt8 :=
    match n.fraction with
    | none => []
    | some ds => 0x2e :: ds.map Decimal.ascii
  let exponent : List UInt8 :=
    match n.exponent with
    | none => []
    | some e => exponentBytes e
  minus ++ n.whole.map Decimal.ascii ++ fraction ++ exponent

/-! ## Reading -/

/-- The digit that a byte is. -/
def digit? (b : UInt8) : Option Digit :=
  if 0x30 ≤ b ∧ b ≤ 0x39 then some ⟨(b.toNat - 48) % 10, Nat.mod_lt _ (by decide)⟩ else none

/-- The digits at the start of a text, after those already read, which come last first. -/
def takeDigits (read : List Digit) : List UInt8 → List Digit × List UInt8
  | [] => (read.reverse, [])
  | b :: rest =>
    match digit? b with
    | some d => takeDigits (d :: read) rest
    | none => (read.reverse, b :: rest)

/-- The digits that must follow. -/
def digits? (text : List UInt8) : Option (List Digit × List UInt8) :=
  match takeDigits [] text with
  | ([], _) => none
  | (ds, rest) => some (ds, rest)

/-- The whole part: one zero, or digits that do not start with one. -/
def whole? (text : List UInt8) : Option (List Digit × List UInt8) :=
  match takeDigits [] text with
  | ([], _) => none
  | (d :: ds, rest) => if d = 0 ∧ ds ≠ [] then none else some (d :: ds, rest)

/-- The digits after a point, if there is a point. -/
def fraction? : List UInt8 → Option (Option (List Digit) × List UInt8)
  | 0x2e :: rest => (digits? rest).map fun (ds, rest) => (some ds, rest)
  | text => some (none, text)

/-- The sign at the start of a text, if there is one. -/
def sign : List UInt8 → Option Sign × List UInt8
  | 0x2b :: rest => (some .plus, rest)
  | 0x2d :: rest => (some .minus, rest)
  | text => (none, text)

/-- The exponent, if there is one. -/
def exponent? : List UInt8 → Option (Option Exponent × List UInt8)
  | [] => some (none, [])
  | b :: rest =>
    if b = 0x65 ∨ b = 0x45 then
      let (s, rest) := sign rest
      (digits? rest).map fun (ds, rest) => (some ⟨b = 0x45, s, ds⟩, rest)
    else some (none, b :: rest)

/-- The numeral without its minus sign. -/
def unsigned? (negative : Bool) (text : List UInt8) : Option (Numeral × List UInt8) := do
  let (whole, rest) ← whole? text
  let (fraction, rest) ← fraction? rest
  let (exponent, rest) ← exponent? rest
  return (⟨negative, whole, fraction, exponent⟩, rest)

/-- The numeral that a text starts with, and the text behind it. -/
def scan? : List UInt8 → Option (Numeral × List UInt8)
  | 0x2d :: rest => unsigned? true rest
  | text => unsigned? false text

end Numeral

end PaxosLog.Json
