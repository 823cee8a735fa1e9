/-!
# Faults

A fault ends a step before it is finished: a counter would leave its 64 bits, or a condition that
the step relies on does not hold. It is no answer to a caller; whoever takes the step stops there.
`Except Fault` is the type of everything that may end so.

| fault | stops |
|---|---|
| `counterOverflow` | `next` of a ballot or of a slot, and the sum of two sizes in `flexible` |
| `durationOverflow` | `next_delay`, where bound and random part are added |
| `emptyRange` | `random_range` of a range without numbers |
| `thresholdTooLarge` | `threshold_reached` with a size above that of the cluster |
| `slotTaken` | `insert` at a slot that holds an entry |
| `entryFrozen` | `overwrite` and `repropose` of a chosen entry |
| `notLeading` | `propose` by a replica that does not lead |

`checkedSucc` is the successor that ballots and slots count with. `bind_eq_ok` and `map_eq_ok` take
a composite step apart.

Out of scope: running without these checks, where counters wrap round and the conditions of the
last four lines are taken for granted.
-/

namespace PaxosLog

/-- Why a step cannot be carried out. -/
inductive Fault where
  /-- A round, a slot or a sum of quorum sizes would pass `2 ^ 64 - 1`. -/
  | counterOverflow
  /-- A sum of durations would pass `2 ^ 64 - 1` seconds. -/
  | durationOverflow
  /-- A number was to be drawn from an empty range. -/
  | emptyRange
  /-- A threshold was asked for that exceeds the cluster. -/
  | thresholdTooLarge
  /-- A new entry was to be stored at a slot that holds one. -/
  | slotTaken (slot : UInt64)
  /-- A chosen value was to be replaced or proposed again. -/
  | entryFrozen
  /-- A request was to be proposed by a replica that does not lead. -/
  | notLeading
deriving DecidableEq, Repr

/-- The text of a fault. -/
def Fault.message : Fault → String
  | .counterOverflow => "attempt to add with overflow"
  | .durationOverflow => "overflow when adding durations"
  | .emptyRange => "cannot sample empty range"
  | .thresholdTooLarge => "quorum larger than the cluster"
  | .slotTaken slot => "slot(" ++ toString slot.toNat ++ ") already present"
  | .entryFrozen => "committed entries are frozen"
  | .notLeading => "only the leader proposes"

/-- The largest 64-bit counter. -/
def maxCounter : UInt64 := 0xffffffffffffffff

/-- The next counter, or a fault at the largest one. -/
def checkedSucc (n : UInt64) : Except Fault UInt64 :=
  if n = maxCounter then .error .counterOverflow else .ok (n + 1)

theorem checkedSucc_eq_ok {n m : UInt64} :
    checkedSucc n = .ok m ↔ n < maxCounter ∧ m = n + 1 := by
  unfold checkedSucc maxCounter
  split
  · grind
  · simp only [Except.ok.injEq]; grind

/-- Below the limit the checked successor is the successor of the number. -/
theorem toNat_of_checkedSucc {n m : UInt64} (h : checkedSucc n = .ok m) :
    m.toNat = n.toNat + 1 := by
  obtain ⟨hn, rfl⟩ := checkedSucc_eq_ok.mp h
  have : n.toNat < 2 ^ 64 - 1 := by simpa [UInt64.lt_iff_toNat_lt, maxCounter] using hn
  rw [UInt64.toNat_add]
  simp only [UInt64.toNat_one]
  omega

/-! ## Steps in sequence

A composite step succeeds when each of its parts does. -/

variable {ε α β : Type}

theorem bind_eq_ok {x : Except ε α} {f : α → Except ε β} {b : β} :
    x >>= f = .ok b ↔ ∃ a, x = .ok a ∧ f a = .ok b := by
  cases x with
  | error e => exact ⟨fun h => (nomatch h), fun ⟨_, h, _⟩ => (nomatch h)⟩
  | ok a => exact ⟨fun h => ⟨a, rfl, h⟩, fun ⟨_, h, hf⟩ => by cases h; exact hf⟩

theorem map_eq_ok {x : Except ε α} {f : α → β} {b : β} :
    x.map f = .ok b ↔ ∃ a, x = .ok a ∧ f a = b := by
  cases x with
  | error e => exact ⟨fun h => (nomatch h), fun ⟨_, h, _⟩ => (nomatch h)⟩
  | ok a =>
    exact ⟨fun h => ⟨a, rfl, Except.ok.inj h⟩, fun ⟨_, h, hf⟩ => by cases h; cases hf; rfl⟩

end PaxosLog
