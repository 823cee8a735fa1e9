import PaxosLog.Decimal

/-!
# Binary fractions

The finite values of a 64-bit floating-point number in terms of whole numbers: a sign, a magnitude
`m * 2 ^ q`, and the interval of the numbers that round to it, scaled to whole numbers over a common
denominator: `low` and `high` are its ends.

Out of scope: infinities and values that are no numbers. No numeral stands for one.
-/

namespace PaxosLog

/-- A finite floating-point value `± m * 2 ^ q`, with `m` below `2 ^ 53`. -/
structure BinaryFraction where
  negative : Bool
  m : Nat
  q : Int
  /-- The value below is only half as far away as the one above. -/
  narrowBelow : Bool
deriving DecidableEq, Repr

namespace BinaryFraction

/-- The value that 64 bits encode, for encodings of finite values. -/
def ofBits (bits : UInt64) : BinaryFraction :=
  let exponent : Nat := ((bits >>> 52) &&& 0x7ff).toNat
  let fraction : Nat := (bits &&& 0xfffffffffffff).toNat
  { negative := bits >>> 63 ≠ 0
    m := if exponent = 0 then fraction else 0x10000000000000 + fraction
    q := if exponent = 0 then -1074 else (exponent : Int) - 1075
    narrowBelow := fraction = 0 && 1 < exponent }

/-- The numerator of `4 m * 2 ^ (q - 2)` over `denominator`. -/
def numerator (x : BinaryFraction) : Nat := (4 * x.m) <<< (x.q - 2).toNat

/-- The denominator that goes with `numerator`, `low` and `high`. -/
def denominator (x : BinaryFraction) : Nat := 1 <<< (2 - x.q).toNat

/-- The numerator of the least number that rounds to the value, or of its limit from above. -/
def low (x : BinaryFraction) : Nat :=
  (4 * x.m - if x.narrowBelow then 1 else 2) <<< (x.q - 2).toNat

/-- The numerator of the greatest number that rounds to the value, or of its limit from below. -/
def high (x : BinaryFraction) : Nat := (4 * x.m + 2) <<< (x.q - 2).toNat

/-- The ends of the interval round to the value as well. -/
def closed (x : BinaryFraction) : Bool := x.m % 2 = 0

end BinaryFraction

end PaxosLog
