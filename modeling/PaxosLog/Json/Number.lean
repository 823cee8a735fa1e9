import PaxosLog.Json.Numeral

/-!
# The value of a numeral

A plain numeral stands for a whole number if that fits 64 bits, unsigned or, behind a minus sign,
signed. Every other numeral stands for a floating-point number: one with a point or an exponent, a
number too large, and minus zero. Its value is found in two roundings: the leading digits that fit
64 bits are taken as a floating-point number and then multiplied or divided by a power of ten. A
numeral beyond the floating-point numbers has no value.

A floating-point number fits none of the types of the wire format. Its value is read only because an
error says what was found.

Out of scope: correct rounding. Two roundings may miss the nearest floating-point number, and then
an error shows another one.
-/

namespace PaxosLog.Json

/-- What a numeral stands for. -/
inductive Number where
  /-- A whole number from zero on. -/
  | natural (n : UInt64)
  /-- The whole number `- magnitude`, below zero. -/
  | negative (magnitude : UInt64)
  /-- The floating-point number with this encoding. -/
  | real (bits : UInt64)
deriving DecidableEq, Repr

/-- `significand * 10 ^ exponent`. -/
structure Parts where
  significand : Nat
  exponent : Int
deriving DecidableEq, Repr

namespace Parts

/-- The significand with one more digit behind it, if it still fits 64 bits. -/
def push? (significand : Nat) (d : Digit) : Option Nat :=
  let n := 10 * significand + d.val
  if n < UInt64.size then some n else none

/-- Takes whole digits. From the first one on that does not fit, they only count as places. -/
def takeWhole : Parts → List Digit → Parts
  | p, [] => p
  | p, d :: ds =>
    match push? p.significand d with
    | some n =>
      if p.exponent = 0 then takeWhole ⟨n, 0⟩ ds
      else takeWhole { p with exponent := p.exponent + 1 } ds
    | none => takeWhole { p with exponent := p.exponent + 1 } ds

/-- Takes digits after the point, up to the first one that does not fit. -/
def takeFraction : Parts → List Digit → Parts
  | p, [] => p
  | p, d :: ds =>
    match push? p.significand d with
    | some n => takeFraction ⟨n, p.exponent - 1⟩ ds
    | none => p

/-- `10 ^ k` as a floating-point number, for `k` up to 308. -/
def powerOfTen (k : Nat) : Float := Float.ofScientific 1 false k

/-- `x / 10 ^ k`, by powers of ten up to 308. Nothing changes once zero is reached. -/
def divideBy : (steps : Nat) → Float → (k : Nat) → Float
  | 0, x, _ => x
  | steps + 1, x, k =>
    if k ≤ 308 then x / powerOfTen k
    else if x == 0.0 then x
    else divideBy steps (x / powerOfTen 308) (k - 308)

/-- The floating-point number that the parts stand for, if it is finite. -/
def toFloat? (p : Parts) : Option Float :=
  let x := (UInt64.ofNat p.significand).toFloat
  if 0 ≤ p.exponent then
    if p.exponent ≤ 308 then
      let y := x * powerOfTen p.exponent.toNat
      if y.isInf then none else some y
    else if p.significand = 0 then some x
    else none
  else some (divideBy (p.exponent.natAbs / 308 + 1) x p.exponent.natAbs)

end Parts

namespace Numeral

/-- The largest exponent that is read as a number. -/
def exponentLimit : Nat := 2147483647

/-- The magnitude of a numeral as a floating-point number, if it is finite. -/
def magnitude? (n : Numeral) : Option Float :=
  let p := Parts.takeFraction (Parts.takeWhole ⟨0, 0⟩ n.whole) (n.fraction.getD [])
  match n.exponent with
  | none => p.toFloat?
  | some e =>
    let k := Decimal.value e.digits
    if e.sign = some .minus then
      if exponentLimit < k then some 0.0 else Parts.toFloat? { p with exponent := p.exponent - k }
    else if exponentLimit < k then (if p.significand = 0 then some 0.0 else none)
    else Parts.toFloat? { p with exponent := p.exponent + k }

/-- The floating-point number that a numeral stands for, if it is finite. -/
def real? (n : Numeral) : Option Number :=
  n.magnitude?.map fun x => .real (if n.negative then -x else x).toBits

/-- What a numeral stands for. -/
def toNumber? (n : Numeral) : Option Number :=
  let k := Decimal.value n.whole
  if n.fraction.isSome ∨ n.exponent.isSome then n.real?
  else if n.negative then
    if 0 < k ∧ k ≤ UInt64.size / 2 then some (.negative (UInt64.ofNat k)) else n.real?
  else if k < UInt64.size then some (.natural (UInt64.ofNat k))
  else n.real?

end Numeral

end PaxosLog.Json
