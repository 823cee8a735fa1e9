import PaxosLog.Fault

/-!
# Durations

A duration is a whole number of nanoseconds whose seconds fit 64 bits. Sums are exact or fault.
`Duration.ofMillis` and `Duration.add` are what delays are made with, and `Duration.millis` is how
their random part is measured: the fraction of a millisecond is dropped, and what is left is cut to
64 bits.

Out of scope: clocks. A time is a duration since some start, and who moves it on is said where it
is used.
-/

namespace PaxosLog

/-- The nanoseconds of a second. -/
def nanosPerSecond : Nat := 1000000000

/-- The nanoseconds of a millisecond. -/
def nanosPerMilli : Nat := 1000000

/-- One more than the largest number of nanoseconds of a duration. -/
def durationLimit : Nat := UInt64.size * nanosPerSecond

/-- A length of time. -/
structure Duration where
  nanos : Nat
  inRange : nanos < durationLimit
deriving DecidableEq, Repr

namespace Duration

/-- No time at all. -/
def zero : Duration := ⟨0, by decide⟩

/-- `ms` milliseconds. -/
def ofMillis (ms : UInt64) : Duration :=
  ⟨ms.toNat * nanosPerMilli, by
    have := ms.toNat_lt_size
    simp only [durationLimit, nanosPerSecond, nanosPerMilli]
    omega⟩

/-- The duration of `nanos` nanoseconds, or a fault if it has too many seconds. -/
def ofNanos (nanos : Nat) : Except Fault Duration :=
  if h : nanos < durationLimit then .ok ⟨nanos, h⟩ else .error .durationOverflow

/-- The sum of two durations. -/
def add (a b : Duration) : Except Fault Duration := ofNanos (a.nanos + b.nanos)

/-- The whole seconds. -/
def seconds (d : Duration) : Nat := d.nanos / nanosPerSecond

/-- The nanoseconds beyond the whole seconds. -/
def subsecNanos (d : Duration) : Nat := d.nanos % nanosPerSecond

/-- The whole milliseconds, reduced modulo `2 ^ 64`. -/
def millis (d : Duration) : UInt64 := UInt64.ofNat (d.nanos / nanosPerMilli)

/-- Milliseconds add up without a fault as long as there are at most two of them. -/
theorem add_ofMillis (a b : UInt64) :
    ∃ d, (ofMillis a).add (ofMillis b) = .ok d ∧
      d.nanos = (a.toNat + b.toNat) * nanosPerMilli := by
  have ha := a.toNat_lt_size
  have hb := b.toNat_lt_size
  have h : (ofMillis a).nanos + (ofMillis b).nanos < durationLimit := by
    simp only [ofMillis, durationLimit, nanosPerSecond, nanosPerMilli]
    omega
  exact ⟨⟨_, h⟩, by simp [add, ofNanos, h], by simp only [ofMillis, Nat.add_mul]⟩

end Duration

end PaxosLog
