import PaxosLog.Random

/-!
# Scripted randomness

A source that is told beforehand what to draw. The next scripted number is folded into the range,
and a script that has run out draws the low end.
-/

namespace PaxosLog

/-- The numbers still to be drawn. -/
structure Script where
  draws : List UInt64
deriving DecidableEq, Repr

namespace Script

/-- Draws from `lo` up to, not including, `hi`. -/
def range (lo hi : UInt64) (s : Script) : Except Fault UInt64 × Script :=
  if hi ≤ lo then (.error .emptyRange, s)
  else
    match s.draws with
    | [] => (.ok lo, s)
    | d :: rest => (.ok (lo + d % (hi - lo)), ⟨rest⟩)

instance : RandomSource Script := ⟨range⟩

end Script

end PaxosLog
