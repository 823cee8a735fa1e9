import PaxosLog.Number.Binary

/-!
# Shortest decimals

The decimal with the fewest digits that reads back as a given floating-point value, and the nearest
one to the value if there are several. A decimal with `n` digits that rounds to a value is next to
the value on the grid of such decimals, so for each `n` two candidates are enough.

This is how a floating-point number is shown in an error: `shortest` finds its digits, and
`DecimalLayout` says from where on they are written with an exponent.
-/

namespace PaxosLog

/-- The decimal `digits * 10 ^ exponent`. -/
structure Scaled where
  digits : Nat
  exponent : Int
deriving DecidableEq, Repr

namespace BinaryFraction

/-- `10 ^ e` as a numerator and a denominator. -/
def tenTo (e : Int) : Nat × Nat := (Nat.pow 10 e.toNat, Nat.pow 10 (-e).toNat)

/-- The decimal rounds to the magnitude of the value. -/
def readsBack (x : BinaryFraction) (d : Scaled) : Bool :=
  let (num, den) := tenTo d.exponent
  let scaled := d.digits * num * x.denominator
  let low := x.low * den
  let high := x.high * den
  if x.closed then low ≤ scaled && scaled ≤ high else low < scaled && scaled < high

/-- Twice the distance of the decimal from the magnitude of the value, up to a common factor. -/
def distance (x : BinaryFraction) (d : Scaled) : Nat :=
  let (num, den) := tenTo d.exponent
  let scaled := d.digits * num * x.denominator
  let value := x.numerator * den
  (scaled - value) + (value - scaled)

/-- The exponent of the first digit of the magnitude, for a magnitude above zero: the greatest `e`
with `10 ^ e` at most the magnitude. It lies between -324 and 308. -/
def leadingExponent (x : BinaryFraction) : Int :=
  let fits (e : Int) : Bool :=
    let (num, den) := tenTo e
    num * x.denominator ≤ x.numerator * den
  let candidates := (List.range 633).map fun i : Nat => 308 - (i : Int)
  (candidates.find? fits).getD (-324)

/-- The better of the two decimals with `n` digits next to the magnitude, if one rounds to it. -/
def candidate (x : BinaryFraction) (leading : Int) (n : Nat) : Option Scaled :=
  let e := leading - (n - 1 : Nat)
  let (num, den) := tenTo e
  let below : Scaled := ⟨x.numerator * den / (num * x.denominator), e⟩
  let above : Scaled := ⟨below.digits + 1, e⟩
  match x.readsBack below, x.readsBack above with
  | true, true =>
    if x.distance below < x.distance above then some below
    else if x.distance above < x.distance below then some above
    else if below.digits % 2 = 0 then some below else some above
  | true, false => some below
  | false, true => some above
  | false, false => none

/-- The shortest decimal that rounds to the magnitude. Seventeen digits always suffice. -/
def shortest (x : BinaryFraction) : Scaled :=
  if x.m = 0 then ⟨0, 0⟩
  else
    let leading := x.leadingExponent
    ((List.range 17).findSome? fun i => x.candidate leading (i + 1)).getD ⟨0, 0⟩

end BinaryFraction

/-! ## Layout -/

/-- How a shortest decimal is laid out: between which exponents of the first digit all places are
written. Otherwise one digit stands before the point, and an exponent with its sign behind. -/
structure DecimalLayout where
  leastPositional : Int
  greatestPositional : Int
deriving DecidableEq, Repr

namespace DecimalLayout

/-- The digits of `n` as characters. -/
def chars (n : Nat) : List Char := (Decimal.digits n).map fun d => Char.ofNat (48 + d.val)

/-- The text of a decimal. Positional texts have a digit on both sides of the point. -/
def text (layout : DecimalLayout) (negative : Bool) (d : Scaled) : String :=
  let all := chars d.digits
  let digits := (all.reverse.dropWhile (· = '0')).reverse
  let leading : Int := d.exponent + (all.length - 1 : Nat)
  let unsigned :=
    if digits = [] then ['0', '.', '0']
    else if layout.leastPositional ≤ leading ∧ leading ≤ layout.greatestPositional then
      if leading < 0 then
        ['0', '.'] ++ List.replicate (-leading - 1).toNat '0' ++ digits
      else
        let places := leading.toNat + 1
        let whole := digits.take places ++ List.replicate (places - digits.length) '0'
        let rest := digits.drop places
        whole ++ ['.'] ++ (if rest = [] then ['0'] else rest)
    else
      let rest := digits.drop 1
      digits.take 1 ++ (if rest = [] then [] else '.' :: rest) ++
        ['e', if leading < 0 then '-' else '+'] ++ chars leading.natAbs
  String.ofList (if negative then '-' :: unsigned else unsigned)

end DecimalLayout

end PaxosLog
