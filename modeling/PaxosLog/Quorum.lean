import PaxosLog.Error

/-!
# Quorums

`Quorum` collects who acknowledged one round, each replica once. `QuorumSpec` holds how many
acknowledgements each phase needs; its fields carry the reason why the protocol is safe with them:
any two sets of members that meet the two thresholds share a member, because the thresholds add up
to more than the cluster.

Model of the quorum tracker (§4.1 of the specification):
* `Quorum.empty`, `Quorum.ack`, `Quorum.contains`, `Quorum.size` and `Quorum.thresholdReached` are
  `new` and `reset`, `ack`, `contains`, `len` and `threshold_reached`. The voters are kept as a list
  without repetitions in the order in which they came, of which only membership and length are read.
* `QuorumSpec.majority` and `QuorumSpec.flexible` build the thresholds or refuse, as `majority` and
  `flexible` do, with the checks in the same order.
* `QuorumSpec.phase1Reached` and `QuorumSpec.phase2Reached` are `phase1_reached` and
  `phase2_reached`. They go without the check of `threshold_reached`, which thresholds that were
  built pass (`thresholdReached_phase1`, `thresholdReached_phase2`).

Results:
* `Quorum.mem_ack`, `Quorum.size_ack`: an acknowledgement adds its replica, and counts once.
-/

namespace PaxosLog

/-- The replicas that acknowledged a round, in the order of their first acknowledgement. -/
structure Quorum where
  voters : List ReplicaId
  distinct : voters.Nodup
deriving DecidableEq, Repr

namespace Quorum

/-- Nobody acknowledged yet. -/
def empty : Quorum := ⟨[], .nil⟩

/-- `id` acknowledged the round. -/
def contains (q : Quorum) (id : ReplicaId) : Bool := id ∈ q.voters

/-- Records an acknowledgement of `id`. A repeated one changes nothing. -/
def ack (q : Quorum) (id : ReplicaId) : Quorum :=
  if h : id ∈ q.voters then q
  else ⟨q.voters ++ [id], by
    rw [List.nodup_append]
    exact ⟨q.distinct, by simp, by rintro a ha _ hb rfl; exact h (List.mem_singleton.mp hb ▸ ha)⟩⟩

/-- The number of replicas that acknowledged. -/
def size (q : Quorum) : Nat := q.voters.length

/-- `needed` out of `n` replicas acknowledged. More than `n` cannot be asked for. -/
def thresholdReached (q : Quorum) (n needed : Nat) : Except Fault Bool :=
  if needed ≤ n then .ok (needed ≤ q.size) else .error .thresholdTooLarge

theorem mem_ack {q : Quorum} {id a : ReplicaId} :
    a ∈ (q.ack id).voters ↔ a ∈ q.voters ∨ a = id := by
  unfold ack
  split
  · constructor
    · exact Or.inl
    · rintro (h | rfl)
      · exact h
      · assumption
  · simp

theorem ack_of_mem {q : Quorum} {id : ReplicaId} (h : id ∈ q.voters) : q.ack id = q := by
  simp [ack, h]

theorem size_ack (q : Quorum) (id : ReplicaId) :
    (q.ack id).size = if id ∈ q.voters then q.size else q.size + 1 := by
  unfold ack size
  split <;> simp

end Quorum

/-- How many acknowledgements each phase needs in a cluster of a given size. -/
structure QuorumSpec where
  clusterSize : Nat
  phase1 : Nat
  phase2 : Nat
  phase1_pos : 0 < phase1
  phase2_pos : 0 < phase2
  phase1_le : phase1 ≤ clusterSize
  phase2_le : phase2 ≤ clusterSize
  overlap : clusterSize < phase1 + phase2
deriving DecidableEq, Repr

namespace QuorumSpec

/-- More than half of `n` replicas. -/
def majorityOf (n : Nat) : Nat := n / 2 + 1

/-- A majority for both phases. -/
def majority (n : Nat) : Except Failure QuorumSpec :=
  if h : n = 0 then .error (.refused (.invalidConfig .noReplicas))
  else .ok
    { clusterSize := n
      phase1 := majorityOf n
      phase2 := majorityOf n
      phase1_pos := by simp [majorityOf]
      phase2_pos := by simp [majorityOf]
      phase1_le := by simp only [majorityOf]; omega
      phase2_le := by simp only [majorityOf]; omega
      overlap := by simp only [majorityOf]; omega }

/-- Given sizes for the two phases. Both must lie in `1..n`, the sum must be a 64-bit number, and
it must exceed `n`; the first of these that fails is reported. -/
def flexible (n phase1 phase2 : Nat) : Except Failure QuorumSpec :=
  if n = 0 then .error (.refused (.invalidConfig .noReplicas))
  else if h1 : 0 < phase1 ∧ phase1 ≤ n then
    if h2 : 0 < phase2 ∧ phase2 ≤ n then
      if UInt64.size ≤ phase1 + phase2 then .error (.faulted .counterOverflow)
      else if h : n < phase1 + phase2 then
        .ok
          { clusterSize := n
            phase1 := phase1
            phase2 := phase2
            phase1_pos := h1.1
            phase2_pos := h2.1
            phase1_le := h1.2
            phase2_le := h2.2
            overlap := h }
      else .error (.refused (.quorumOverlap phase1 phase2 n))
    else .error (.refused (.invalidConfig (.quorumOutOfRange .vote n phase2)))
  else .error (.refused (.invalidConfig (.quorumOutOfRange .promise n phase1)))

/-- Enough promises to lead. -/
def phase1Reached (spec : QuorumSpec) (q : Quorum) : Bool := spec.phase1 ≤ q.size

/-- Enough votes to choose a value. -/
def phase2Reached (spec : QuorumSpec) (q : Quorum) : Bool := spec.phase2 ≤ q.size

theorem thresholdReached_phase1 (spec : QuorumSpec) (q : Quorum) :
    q.thresholdReached spec.clusterSize spec.phase1 = .ok (spec.phase1Reached q) := by
  simp [Quorum.thresholdReached, spec.phase1_le, phase1Reached]

theorem thresholdReached_phase2 (spec : QuorumSpec) (q : Quorum) :
    q.thresholdReached spec.clusterSize spec.phase2 = .ok (spec.phase2Reached q) := by
  simp [Quorum.thresholdReached, spec.phase2_le, phase2Reached]

end QuorumSpec

end PaxosLog
