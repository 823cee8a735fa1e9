/-!
# Decimal digits

The digits of a natural number, most significant first, and the number of a list of digits. Numbers
on the wire, slots as keys of objects, and the numbers in messages are written with them.

* `Decimal.value_digits`: the digits of `n` stand for `n`.
* `Decimal.head_digits_ne_zero`: a number above zero does not start with a zero.
-/

namespace PaxosLog

/-- A decimal digit. -/
abbrev Digit := Fin 10

namespace Decimal

/-- The number that a list of digits stands for, most significant first. -/
def value (ds : List Digit) : Nat := ds.foldl (fun n d => 10 * n + d.val) 0

/-- At most `count` digits of `n`, the last ones, in front of `tail`. -/
def digitsBefore (tail : List Digit) : (count n : Nat) → List Digit
  | 0, _ => tail
  | count + 1, n =>
    let tail := ⟨n % 10, Nat.mod_lt n (by decide)⟩ :: tail
    if n < 10 then tail else digitsBefore tail count (n / 10)

/-- The digits of `n`, without leading zeros; zero has the digit zero. -/
def digits (n : Nat) : List Digit := digitsBefore [] (n + 1) n

/-- The ASCII code of a digit. -/
def ascii (d : Digit) : UInt8 := UInt8.ofNat (48 + d.val)

/-- The digits of `n` as ASCII codes. -/
def bytes (n : Nat) : List UInt8 := (digits n).map ascii

theorem foldl_value (ds : List Digit) (n : Nat) :
    ds.foldl (fun n d => 10 * n + d.val) n = n * Nat.pow 10 ds.length + value ds := by
  induction ds generalizing n with
  | nil => simp [value]
  | cons d ds ih =>
    have hpow : Nat.pow 10 (ds.length + 1) = Nat.pow 10 ds.length * 10 := rfl
    simp only [value, List.foldl_cons, List.length_cons]
    rw [ih, ih (10 * 0 + d.val), hpow]
    simp only [Nat.mul_zero, Nat.zero_add, Nat.add_mul]
    rw [Nat.mul_comm 10 n, Nat.mul_assoc, Nat.mul_comm 10]
    omega

theorem value_cons (d : Digit) (ds : List Digit) :
    value (d :: ds) = d.val * Nat.pow 10 ds.length + value ds := by
  have := foldl_value ds (10 * 0 + d.val)
  simpa [value] using this

theorem value_digitsBefore (tail : List Digit) (count n : Nat) (h : n < count) :
    value (digitsBefore tail count n) = n * Nat.pow 10 tail.length + value tail := by
  induction count generalizing tail n with
  | zero => omega
  | succ count ih =>
    simp only [digitsBefore]
    split
    · rename_i hn
      rw [value_cons]; simp [Nat.mod_eq_of_lt hn]
    · rw [ih _ _ (by omega), value_cons]
      have hpow : Nat.pow 10 (tail.length + 1) = Nat.pow 10 tail.length * 10 := rfl
      simp only [List.length_cons]
      rw [hpow, ← Nat.mul_assoc, Nat.mul_right_comm, ← Nat.add_assoc, ← Nat.add_mul]
      congr 2; omega

/-- The digits of a number stand for it. -/
theorem value_digits (n : Nat) : value (digits n) = n := by
  simpa [digits, value] using value_digitsBefore [] (n + 1) n (by omega)

theorem digitsBefore_eq_cons (tail : List Digit) (count n : Nat) (h : n < count) (hn : 0 < n) :
    ∃ d ds, digitsBefore tail count n = d :: ds ∧ d ≠ 0 := by
  induction count generalizing tail n with
  | zero => omega
  | succ count ih =>
    simp only [digitsBefore]
    split
    · rename_i h10
      refine ⟨_, _, rfl, fun h0 => ?_⟩
      have := congrArg Fin.val h0
      simp [Nat.mod_eq_of_lt h10] at this
      omega
    · exact ih _ _ (by omega) (by omega)

/-- A number above zero does not start with a zero. -/
theorem head_digits_ne_zero {n : Nat} (hn : 0 < n) : ∃ d ds, digits n = d :: ds ∧ d ≠ 0 :=
  digitsBefore_eq_cons [] (n + 1) n (by omega) hn

theorem digits_zero : digits 0 = [0] := rfl

end Decimal

end PaxosLog
