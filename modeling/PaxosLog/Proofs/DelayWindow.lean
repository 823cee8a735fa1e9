import PaxosLog.Proofs.Random.Lawful

/-!
# Delays stay in their window

A delay is the fixed part of its policy and a random number of milliseconds below the jitter. The
window is exact: seconds and nanoseconds are those of the sum, with a carry where there is one
(`Duration.Extends`), and the only thing that can go wrong is that the sum has too many seconds.

* `Duration.lt_of_lt_millis`: the whole milliseconds of the jitter may be reduced modulo `2 ^ 64`,
  and what is drawn below them is still shorter than the jitter.
* `Duration.add_ofMillis_cases`: a sum is exact, or longer than any duration.

**`delay_in_window`**: for every policy and every stream, whatever its seed is and however far it
has been read.
-/

namespace PaxosLog

namespace Duration

/-- `d` is `k` milliseconds longer than `b`: nanoseconds beyond the second are carried. -/
structure Extends (b d : Duration) (k : Nat) : Prop where
  nanos : d.nanos = b.nanos + k * nanosPerMilli
  seconds : d.seconds =
    b.seconds + k / 1000 + (b.subsecNanos + k % 1000 * nanosPerMilli) / nanosPerSecond
  subsecNanos : d.subsecNanos = (b.subsecNanos + k % 1000 * nanosPerMilli) % nanosPerSecond

/-- The carry is that of the sum of all nanoseconds. -/
theorem extends_of_nanos {b d : Duration} {k : Nat} (h : d.nanos = b.nanos + k * nanosPerMilli) :
    b.Extends d k := by
  refine ⟨h, ?_, ?_⟩ <;>
    simp only [Duration.seconds, Duration.subsecNanos, nanosPerSecond, nanosPerMilli] at h ⊢ <;>
    omega

theorem toNat_millis (d : Duration) : d.millis.toNat = d.nanos / nanosPerMilli % UInt64.size :=
  UInt64.toNat_ofNat'

/-- Reducing the milliseconds of a duration does not make them more. -/
theorem lt_of_lt_millis {d : Duration} {ms : UInt64} (h : ms < d.millis) :
    ms.toNat * nanosPerMilli < d.nanos := by
  rw [UInt64.lt_iff_toNat_lt, toNat_millis] at h
  have hle := Nat.mod_le (d.nanos / nanosPerMilli) UInt64.size
  simp only [nanosPerMilli] at h hle ⊢
  omega

/-- Milliseconds are added exactly, or there is no duration that long. -/
theorem add_ofMillis_cases (b : Duration) (ms : UInt64) :
    (∃ d, b.add (.ofMillis ms) = .ok d ∧ b.Extends d ms.toNat) ∨
      b.add (.ofMillis ms) = .error .durationOverflow ∧
        UInt64.size ≤ (b.nanos + ms.toNat * nanosPerMilli) / nanosPerSecond := by
  unfold add ofNanos
  split
  · exact .inl ⟨_, rfl, extends_of_nanos rfl⟩
  · rename_i hlimit
    refine .inr ⟨rfl, ?_⟩
    simp only [ofMillis, durationLimit, nanosPerSecond] at hlimit ⊢
    omega

end Duration

/-- **Delays stay in their window.** Without a whole millisecond of jitter, reduced modulo
`2 ^ 64`, a delay is the bound and nothing is read from the stream. Otherwise one number `ms` of
the range is drawn, `ms` milliseconds are less than the jitter, and the delay is exactly that much
longer than the bound, or a fault because there is no duration that long. Configured delays never
fault. And what is drawn from a range that is not empty lies in it. -/
theorem delay_in_window :
    (∀ (p : BackoffPolicy) (s : Stream), p.jitter.nanos / nanosPerMilli % UInt64.size = 0 →
      p.nextDelay s = (.ok p.bound, s)) ∧
    (∀ (p : BackoffPolicy) (s : Stream), p.jitter.nanos / nanosPerMilli % UInt64.size ≠ 0 →
      ∃ ms : UInt64, s.range 0 p.jitter.millis = (.ok ms, (p.nextDelay s).2) ∧
        ms.toNat * nanosPerMilli < p.jitter.nanos ∧
        ((∃ d, (p.nextDelay s).1 = .ok d ∧ p.bound.Extends d ms.toNat) ∨
          (p.nextDelay s).1 = .error .durationOverflow ∧
            UInt64.size ≤ (p.bound.nanos + ms.toNat * nanosPerMilli) / nanosPerSecond)) ∧
    (∀ (c : Config) (s : Stream), ∃ d, (c.backoff.nextDelay s).1 = .ok d) ∧
    ∀ (lo hi : UInt64) (s : Stream), lo < hi →
      ∃ n s', s.range lo hi = (.ok n, s') ∧ lo ≤ n ∧ n < hi := by
  have hzero : ∀ p : BackoffPolicy,
      p.jitter.nanos / nanosPerMilli % UInt64.size = 0 ↔ p.jitter.millis = 0 := fun p => by
    rw [← UInt64.toNat_inj, Duration.toNat_millis]
    rfl
  refine ⟨fun p s h => p.nextDelay_fixed ((hzero p).mp h) s, fun p s h => ?_,
    fun c s => c.exists_nextDelay s, fun lo hi s => LawfulSource.draws lo hi s⟩
  obtain ⟨ms, hdraw, hlt, hnext⟩ := p.nextDelay_jittered (mt (hzero p).mpr h) s
  refine ⟨ms, hdraw, Duration.lt_of_lt_millis hlt, ?_⟩
  rw [hnext]
  exact p.bound.add_ofMillis_cases ms

/-- A jitter of `2 ^ 64` milliseconds is reduced to none. With a jitter of 100 milliseconds the
first delay after 50 milliseconds less a nanosecond is read from the stream of seed 1. -/
theorem delay_in_window_wrapped :
    BackoffPolicy.nextDelay
        ⟨.ofMillis 50, ⟨UInt64.size * nanosPerMilli, by decide⟩⟩ (Stream.ofSeed 1) =
      (.ok (.ofMillis 50), Stream.ofSeed 1) ∧
    (∃ ms : UInt64, ms.toNat < 100 ∧
      ∃ d, (BackoffPolicy.nextDelay ⟨⟨49999999, by decide⟩, .ofMillis 100⟩ (Stream.ofSeed 1)).1 =
        .ok d ∧ d.nanos = 49999999 + ms.toNat * nanosPerMilli) ∧
    ∃ n s', (Stream.ofSeed 1).range 5 6 = (.ok n, s') ∧ 5 ≤ n ∧ n < 6 := by
  obtain ⟨hfixed, hjittered, -, hrange⟩ := delay_in_window
  refine ⟨hfixed _ _ (by decide), ?_, hrange 5 6 _ (by decide)⟩
  obtain ⟨ms, -, hlt, ⟨d, hd, hextends⟩ | ⟨-, hlong⟩⟩ :=
    hjittered ⟨⟨49999999, by decide⟩, .ofMillis 100⟩ (Stream.ofSeed 1) (by decide)
  · refine ⟨ms, ?_, d, hd, hextends.nanos⟩
    change ms.toNat * 1000000 < 100 * 1000000 at hlt
    omega
  · have hms := ms.toNat_lt
    change UInt64.size ≤ (49999999 + ms.toNat * 1000000) / 1000000000 at hlong
    simp only [UInt64.size] at hlong
    omega

end PaxosLog
