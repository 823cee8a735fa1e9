import PaxosLog.Fault

/-!
# Random sources

A random source answers with a number from a half-open range and moves on. A fault leaves the
answer out; the source is handed back in every case, because what was drawn stays drawn.

`RandomSource.range` is `random_range` at 64-bit numbers, the only range a replica draws from.

Out of scope: sources that depend on the machine they run on. Those here are scripts and seeded
streams.
-/

namespace PaxosLog

/-- A state from which numbers can be drawn. -/
class RandomSource (ρ : Type) where
  /-- A number `n` with `lo ≤ n < hi`, or a fault if there is none, and the source after it. -/
  range : (lo hi : UInt64) → ρ → Except Fault UInt64 × ρ

/-- A range that a number was asked from. -/
structure Draw where
  lo : UInt64
  hi : UInt64
deriving DecidableEq, Repr

end PaxosLog
