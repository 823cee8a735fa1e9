import PaxosLog.Config
import PaxosLog.Random.Script
import PaxosLog.Random.Stream

/-!
# Lawful random sources

A source is lawful if it draws a number of every range that has one, and refuses the others
(`LawfulSource`). Scripts and seeded streams are.

`BackoffPolicy.nextDelay_fixed` and `BackoffPolicy.nextDelay_jittered` are the two ways in which a
delay is made.

**`Config.exists_nextDelay`**: with a lawful source a configured delay can always be made. Its range
is not empty where a number is drawn, and two numbers of milliseconds add up to a duration.
-/

namespace PaxosLog

/-- A source draws from every range that is not empty, and only from such. -/
class LawfulSource (ρ : Type) [RandomSource ρ] : Prop where
  draws : ∀ lo hi (s : ρ), lo < hi →
    ∃ n s', RandomSource.range lo hi s = (.ok n, s') ∧ lo ≤ n ∧ n < hi
  refuses : ∀ lo hi (s : ρ), hi ≤ lo → (RandomSource.range lo hi s).1 = .error .emptyRange

/-- A number that is added to the low end and below the width stays in the range. -/
theorem mem_range_of_lt {lo hi n : UInt64} (h : lo < hi) (hn : n.toNat < (hi - lo).toNat) :
    lo ≤ lo + n ∧ lo + n < hi := by
  have hwidth : (hi - lo).toNat = hi.toNat - lo.toNat :=
    UInt64.toNat_sub_of_le _ _ (Std.le_of_lt h)
  rw [UInt64.lt_iff_toNat_lt] at h
  have hsum : (lo + n).toNat = lo.toNat + n.toNat := by
    have := hi.toNat_lt
    rw [UInt64.toNat_add, Nat.mod_eq_of_lt (by omega)]
  rw [UInt64.le_iff_toNat_le, UInt64.lt_iff_toNat_lt, hsum]
  omega

/-- A range that is not empty has a width. -/
theorem width_pos {lo hi : UInt64} (h : lo < hi) : 0 < (hi - lo).toNat := by
  rw [UInt64.toNat_sub_of_le _ _ (Std.le_of_lt h)]
  rw [UInt64.lt_iff_toNat_lt] at h
  omega

instance : LawfulSource Script where
  draws lo hi s h := by
    have hne : ¬ hi ≤ lo := Std.not_le.mpr h
    show ∃ n s', Script.range lo hi s = (.ok n, s') ∧ _
    unfold Script.range
    rw [if_neg hne]
    cases s.draws with
    | nil => exact ⟨lo, s, rfl, Std.le_refl _, h⟩
    | cons d rest =>
      refine ⟨lo + d % (hi - lo), ⟨rest⟩, rfl, mem_range_of_lt h ?_⟩
      rw [UInt64.toNat_mod]
      exact Nat.mod_lt _ (width_pos h)
  refuses lo hi s h := by
    show (Script.range lo hi s).1 = _
    simp [Script.range, h]

/-- A number below `n` is below `n`, whatever comes next in the stream. -/
theorem Stream.below_lt {n : UInt64} (hn : 0 < n.toNat) (s : Stream) :
    (s.below n).1.toNat < n.toNat := by
  have hbelow : (s.below n).1 = UInt64.ofNat (Stream.scaled s.next.1 s.next.2.next.1 n) := by
    simp only [Stream.below]
  have hlt := Stream.scaled_lt (u := s.next.1) (v := s.next.2.next.1) hn
  rw [hbelow, UInt64.toNat_ofNat_of_lt' (Nat.lt_trans hlt (UInt64.toNat_lt_size n))]
  exact hlt

instance : LawfulSource Stream where
  draws lo hi s h := by
    have hne : ¬ hi ≤ lo := Std.not_le.mpr h
    have hlt := Stream.below_lt (width_pos h) s
    show ∃ n s', Stream.range lo hi s = (.ok n, s') ∧ _
    unfold Stream.range
    rw [if_neg hne]
    generalize s.below (hi - lo) = drawn at hlt ⊢
    exact ⟨lo + drawn.1, drawn.2, rfl, mem_range_of_lt h hlt⟩
  refuses lo hi s h := by
    show (Stream.range lo hi s).1 = _
    simp [Stream.range, h]

namespace BackoffPolicy

/-- Without a whole millisecond of jitter nothing is drawn. -/
theorem nextDelay_fixed {ρ : Type} [RandomSource ρ] {p : BackoffPolicy} (h : p.jitter.millis = 0)
    (source : ρ) : p.nextDelay source = (.ok p.bound, source) := if_pos h

/-- Otherwise one number below the milliseconds of the jitter is drawn and added. -/
theorem nextDelay_jittered {ρ : Type} [RandomSource ρ] [LawfulSource ρ] {p : BackoffPolicy}
    (h : p.jitter.millis ≠ 0) (source : ρ) :
    ∃ ms, RandomSource.range 0 p.jitter.millis source = (.ok ms, (p.nextDelay source).2) ∧
      ms < p.jitter.millis ∧ (p.nextDelay source).1 = p.bound.add (.ofMillis ms) := by
  have hpos : 0 < p.jitter.millis := by grind
  obtain ⟨ms, source', hdraw, -, hlt⟩ := LawfulSource.draws 0 p.jitter.millis source hpos
  have hnext : p.nextDelay source = (p.bound.add (.ofMillis ms), source') := by
    simp only [nextDelay, if_neg h, hdraw, Except.bind]
  exact ⟨ms, by rw [hnext, hdraw], hlt, by rw [hnext]⟩

end BackoffPolicy

/-- **A configured delay can always be made.** -/
theorem Config.exists_nextDelay {ρ : Type} [RandomSource ρ] [LawfulSource ρ] (c : Config)
    (source : ρ) : ∃ delay, (c.backoff.nextDelay source).1 = .ok delay := by
  by_cases hjitter : c.backoff.jitter.millis = 0
  · exact ⟨_, by rw [BackoffPolicy.nextDelay_fixed hjitter]⟩
  · obtain ⟨ms, -, -, hnext⟩ := BackoffPolicy.nextDelay_jittered hjitter source
    obtain ⟨delay, hdelay, -⟩ := Duration.add_ofMillis c.backoffBound ms
    exact ⟨delay, hnext.trans hdelay⟩

end PaxosLog
