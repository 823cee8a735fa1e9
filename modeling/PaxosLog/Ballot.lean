import PaxosLog.Fault

/-!
# Ballots

A ballot is the right to lead: a round together with the replica that opened it (§3 and §4.1 of the
specification). Ballots are ordered by round, then by owner, and the ballot without an owner is the
lowest of its round, so two replicas that open the same round never hold equal ballots.

* `Ballot.zero`, `Ballot.next` and `Ballot.isOwnedBy` are `ZERO`, `next` and `is_owned_by`; `<` and
  `max` are the lexicographic order of `(round, owner)`.
* `ReplicaId.text` and `Ballot.text` are how identities and ballots are displayed.

Results:
* `Ballot.lt_iff_rank_lt` and `Ballot.rank_inj` embed the order into the natural numbers, which
  makes it a linear order (the two instances after it) and lets arithmetic decide statements about
  it.
* `Ballot.lt_of_next`: the ballot a replica opens next is above the one it starts from.
-/

namespace PaxosLog

/-- Identity of a replica. Every replica orders identities the same way. -/
abbrev ReplicaId := UInt64

/-- The displayed form of an identity, such as `replica(7)`. -/
def ReplicaId.text (id : ReplicaId) : String := "replica(" ++ toString id.toNat ++ ")"

/-- A round and the replica that opened it. -/
structure Ballot where
  round : UInt64
  owner : Option ReplicaId
deriving DecidableEq, Repr

namespace Ballot

/-- The ballot before every election: round 0 without an owner. -/
def zero : Ballot := ⟨0, none⟩

/-- `id` owns the ballot. -/
def isOwnedBy (b : Ballot) (id : ReplicaId) : Bool := b.owner = some id

/-- The ballot that `id` opens after `b`: the next round under its own name. -/
def next (b : Ballot) (id : ReplicaId) : Except Fault Ballot :=
  (checkedSucc b.round).map fun round => ⟨round, some id⟩

/-- The displayed form of a ballot, such as `ballot(3.2)`, with `-` for no owner. -/
def text (b : Ballot) : String :=
  "ballot(" ++ toString b.round.toNat ++ "." ++
    (match b.owner with
      | some id => toString id.toNat
      | none => "-") ++ ")"

/-! ## Order -/

/-- No owner sorts below every owner. -/
def ownerBelow : Option ReplicaId → Option ReplicaId → Bool
  | none, some _ => true
  | some a, some b => a < b
  | _, none => false

instance : LT Ballot :=
  ⟨fun a b => a.round < b.round ∨ a.round = b.round ∧ ownerBelow a.owner b.owner = true⟩

instance : LE Ballot := ⟨fun a b => a < b ∨ a = b⟩

instance (a b : Ballot) : Decidable (a < b) := inferInstanceAs (Decidable (_ ∨ _))

instance (a b : Ballot) : Decidable (a ≤ b) := inferInstanceAs (Decidable (_ ∨ _))

instance : Max Ballot := ⟨fun a b => if a ≤ b then b else a⟩

/-- The position of an owner in the order, as a number. -/
def ownerRank : Option ReplicaId → Nat
  | none => 0
  | some id => id.toNat + 1

theorem ownerRank_lt (o : Option ReplicaId) : ownerRank o < UInt64.size + 1 := by
  cases o with
  | none => simp [ownerRank]
  | some id => have := id.toNat_lt_size; simp only [ownerRank]; omega

theorem ownerRank_inj {o p : Option ReplicaId} (h : ownerRank o = ownerRank p) : o = p := by
  cases o <;> cases p <;> simp_all [ownerRank, UInt64.toNat_inj]

theorem ownerBelow_iff {o p : Option ReplicaId} :
    ownerBelow o p = true ↔ ownerRank o < ownerRank p := by
  cases o <;> cases p <;> simp [ownerBelow, ownerRank, UInt64.lt_iff_toNat_lt]

/-- The position of a ballot in the order, as a number. -/
def rank (b : Ballot) : Nat := b.round.toNat * (UInt64.size + 1) + ownerRank b.owner

theorem rank_inj {a b : Ballot} (h : a.rank = b.rank) : a = b := by
  have := ownerRank_lt a.owner
  have := ownerRank_lt b.owner
  simp only [rank, UInt64.size] at *
  have hr : a.round = b.round := UInt64.toNat_inj.mp (by omega)
  have ho : a.owner = b.owner := ownerRank_inj (by rw [hr] at h; omega)
  cases a; cases b; cases hr; cases ho; rfl

theorem lt_iff_rank_lt {a b : Ballot} : a < b ↔ a.rank < b.rank := by
  show (a.round < b.round ∨ a.round = b.round ∧ ownerBelow a.owner b.owner = true) ↔ _
  have := ownerRank_lt a.owner
  have := ownerRank_lt b.owner
  rw [UInt64.lt_iff_toNat_lt, ← UInt64.toNat_inj, ownerBelow_iff]
  simp only [rank, UInt64.size] at *
  omega

theorem le_iff_rank_le {a b : Ballot} : a ≤ b ↔ a.rank ≤ b.rank := by
  show (a < b ∨ a = b) ↔ _
  rw [lt_iff_rank_lt, Nat.le_iff_lt_or_eq]
  exact or_congr_right ⟨congrArg rank, rank_inj⟩

theorem zero_le (b : Ballot) : zero ≤ b := le_iff_rank_le.mpr (Nat.zero_le _)

theorem not_lt {a b : Ballot} : ¬ a < b ↔ b ≤ a := by
  rw [lt_iff_rank_lt, le_iff_rank_le]; omega

instance : Std.IsLinearOrder Ballot where
  le_refl _ := le_iff_rank_le.mpr (Nat.le_refl _)
  le_trans _ _ _ hab hbc :=
    le_iff_rank_le.mpr (Nat.le_trans (le_iff_rank_le.mp hab) (le_iff_rank_le.mp hbc))
  le_antisymm _ _ hab hba :=
    rank_inj (Nat.le_antisymm (le_iff_rank_le.mp hab) (le_iff_rank_le.mp hba))
  le_total _ _ := by rw [le_iff_rank_le, le_iff_rank_le]; exact Nat.le_total _ _

instance : Std.LawfulOrderLT Ballot where
  lt_iff _ _ := by rw [lt_iff_rank_lt, le_iff_rank_le, le_iff_rank_le]; omega

/-- A ballot is below the one opened after it. -/
theorem lt_of_next {b b' : Ballot} {id : ReplicaId} (h : b.next id = .ok b') : b < b' := by
  unfold next at h
  cases hr : checkedSucc b.round with
  | error f => rw [hr] at h; cases h
  | ok round =>
    rw [hr] at h
    cases h
    have hround := toNat_of_checkedSucc hr
    exact Or.inl (UInt64.lt_iff_toNat_lt.mpr (by show _ < round.toNat; omega))

/-- The ballot that a replica opens belongs to it. -/
theorem owner_of_next {b b' : Ballot} {id : ReplicaId} (h : b.next id = .ok b') :
    b'.owner = some id := by
  unfold next at h
  cases hr : checkedSucc b.round with
  | error f => rw [hr] at h; cases h
  | ok round => rw [hr] at h; cases h; rfl

/-- The ballot that a replica opens is one of the next round. -/
theorem round_of_next {b b' : Ballot} {id : ReplicaId} (h : b.next id = .ok b') :
    b'.round.toNat = b.round.toNat + 1 := by
  obtain ⟨round, hr, rfl⟩ := map_eq_ok.mp h
  exact toNat_of_checkedSucc hr

theorem isOwnedBy_iff {b : Ballot} {id : ReplicaId} :
    b.isOwnedBy id = true ↔ b.owner = some id := by
  simp [isOwnedBy]

end Ballot

end PaxosLog
