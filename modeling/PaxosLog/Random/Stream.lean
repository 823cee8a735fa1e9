import PaxosLog.Random
import PaxosLog.Random.Block

/-!
# Seeded streams

A stream is the sequence of 64-bit numbers that a seed stands for, and how far it has been read.
Number `n` of the stream is made of two neighbouring words of its key stream, so the whole run is
a function of the seed.

A number below `n` is drawn by multiplying a number of the stream with `n` and keeping the high
half. Where the low half shows that this favours some results, one more number decides whether to
round up.

Model of the seeded provider: `Stream.ofSeed`, `Stream.range`, `Stream.ratio` and `Stream.chance`
are `new`, `random_range`, `random_ratio` and `random_bool`. A ratio is given as the numerator of a
fraction, so that it is exact.

Results:
* `Stream.scaled_lt`: what is drawn below `n` is below `n`, whatever the two numbers are.

Out of scope: ranges of numbers that are not 64 bits wide.
-/

namespace PaxosLog

/-- A seeded sequence of numbers and the position of the next one. -/
structure Stream where
  key : KeyStream.Key
  position : Nat
deriving DecidableEq

namespace Stream

/-- The stream of a seed, unread. -/
def ofSeed (seed : UInt64) : Stream := ⟨KeyStream.Key.ofSeed seed, 0⟩

/-- Number `n` of the key stream: words `2 n` and `2 n + 1`, the low one first. -/
def numberAt (key : KeyStream.Key) (n : Nat) : UInt64 :=
  let words := KeyStream.block key (UInt64.ofNat (n / 8))
  let i : Fin 8 := ⟨n % 8, Nat.mod_lt _ (by decide)⟩
  words[2 * i.val].toUInt64 ||| (words[2 * i.val + 1].toUInt64 <<< 32)

/-- The next number, and the stream behind it. -/
def next (s : Stream) : UInt64 × Stream :=
  (numberAt s.key s.position, { s with position := s.position + 1 })

/-- The high half of `u * n`. -/
def highHalf (u n : UInt64) : Nat := u.toNat * n.toNat / UInt64.size

/-- The low half of `u * n`. -/
def lowHalf (u n : UInt64) : Nat := u.toNat * n.toNat % UInt64.size

/-- The low half of `u * n` lies so high that the result has to be corrected. -/
def needsCorrection (u n : UInt64) : Bool := UInt64.size - n.toNat < lowHalf u n

/-- One if the correction with the second number `v` rounds up. -/
def carry (u v n : UInt64) : Nat := if UInt64.size ≤ lowHalf u n + highHalf v n then 1 else 0

/-- The number below `n` that `u` stands for, with `v` at hand for a correction. -/
def scaled (u v n : UInt64) : Nat :=
  if needsCorrection u n then highHalf u n + carry u v n else highHalf u n

/-- A number below `n`, and the stream behind the one or two numbers it took to find it. -/
def below (n : UInt64) (s : Stream) : UInt64 × Stream :=
  let (u, s) := s.next
  let (v, s') := s.next
  (UInt64.ofNat (scaled u v n), if needsCorrection u n then s' else s)

/-- The high half can only reach `n - 1` if the low half asks for no correction. -/
theorem scaled_lt {u v n : UInt64} (hn : 0 < n.toNat) : scaled u v n < n.toNat := by
  have hu := u.toNat_lt_size
  have hn' := n.toNat_lt_size
  have hsplit := Nat.div_add_mod (u.toNat * n.toNat) UInt64.size
  have hmod := Nat.mod_lt (u.toNat * n.toNat) (show 0 < UInt64.size by decide)
  have hmul : u.toNat * n.toNat + n.toNat ≤ UInt64.size * n.toNat := by
    rw [← Nat.succ_mul]; exact Nat.mul_le_mul_right _ hu
  unfold scaled needsCorrection highHalf lowHalf carry
  simp only [UInt64.size] at *
  split <;> rename_i h
  · rw [decide_eq_true_eq] at h
    split <;> omega
  · omega

/-- A number from `lo` up to, not including, `hi`. An empty range leaves the stream alone. -/
def range (lo hi : UInt64) (s : Stream) : Except Fault UInt64 × Stream :=
  if hi ≤ lo then (.error .emptyRange, s)
  else
    let (k, s) := s.below (hi - lo)
    (.ok (lo + k), s)

/-- A fraction of `2 ^ 53` from zero up to, not including, one, given by its numerator. -/
def ratio (s : Stream) : UInt64 × Stream :=
  let (u, s) := s.next
  (u >>> 11, s)

/-- Whether the next fraction is less than `probability`. -/
def chance (probability : Float) (s : Stream) : Bool × Stream :=
  let (k, s) := s.ratio
  (k.toFloat / 9007199254740992.0 < probability, s)

instance : RandomSource Stream := ⟨range⟩

end Stream

end PaxosLog
