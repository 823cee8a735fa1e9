import PaxosLog.Random
import PaxosLog.Duration

/-!
# Randomised delays before another election

A replica that lost an election and still has work waits for a fixed time plus a random number of
milliseconds, so that competing replicas get out of each other's way (§4.6 of the specification). At
most one such wait is outstanding: `BackoffScheduler.arm` refuses until `BackoffScheduler.fired`.

* `BackoffPolicy.nextDelay` is `next_delay`: without whole milliseconds of jitter nothing is drawn.
  `BackoffPolicy.draws` lists the ranges that one delay draws from.
* `BackoffScheduler.idle`, `BackoffScheduler.arm` and `BackoffScheduler.fired` are `new`, `arm` and
  `fired`. A delay that cannot be made leaves the flag raised, as `arm` raises it first.

Out of scope: the timer itself. A replica asks for a delay with an effect, and is told with an input
that it has passed.
-/

namespace PaxosLog

/-- The fixed part of a delay, and an exclusive bound of the random part. -/
structure BackoffPolicy where
  bound : Duration
  jitter : Duration
deriving DecidableEq, Repr

namespace BackoffPolicy

/-- The random numbers that one delay takes: one below the whole milliseconds of the jitter, or
none if there are none. -/
def draws (p : BackoffPolicy) : List Draw :=
  if p.jitter.millis = 0 then [] else [⟨0, p.jitter.millis⟩]

/-- A delay: the fixed part, and as many milliseconds as were drawn. -/
def nextDelay {ρ : Type} [RandomSource ρ] (p : BackoffPolicy) (source : ρ) :
    Except Fault Duration × ρ :=
  if p.jitter.millis = 0 then (.ok p.bound, source)
  else
    let (drawn, source) := RandomSource.range 0 p.jitter.millis source
    (drawn.bind fun ms => p.bound.add (.ofMillis ms), source)

end BackoffPolicy

/-- A policy, and whether a delay is outstanding. -/
structure BackoffScheduler where
  policy : BackoffPolicy
  inFlight : Bool
deriving DecidableEq, Repr

namespace BackoffScheduler

/-- Nothing is outstanding. -/
def idle (policy : BackoffPolicy) : BackoffScheduler := ⟨policy, false⟩

/-- Makes a delay outstanding and says how long it is, unless one is already. -/
def arm {ρ : Type} [RandomSource ρ] (s : BackoffScheduler) (source : ρ) :
    Except Fault (Option Duration) × BackoffScheduler × ρ :=
  if s.inFlight then (.ok none, s, source)
  else
    let (delay, source) := s.policy.nextDelay source
    (delay.map some, { s with inFlight := true }, source)

/-- The outstanding delay has passed. -/
def fired (s : BackoffScheduler) : BackoffScheduler := { s with inFlight := false }

end BackoffScheduler

end PaxosLog
