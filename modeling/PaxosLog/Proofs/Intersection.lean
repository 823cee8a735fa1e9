import Mathlib.Algebra.Group.Nat.Defs
import Mathlib.Data.List.Induction
import PaxosLog.Proofs.Chosen

/-!
# Any two quorums meet

All of the protocol rests on one member that belongs to the promises of a leader and to the votes of
an earlier choice. Which sizes guarantee such a member is settled when the configuration is read:
with `n` members, sizes in `1..n` whose sum exceeds `n`, where a size that is not given is
`n / 2 + 1`. Below `2 ^ 63` members no sum leaves its 64 bits, so nothing else is refused and
nothing faults.

A tracker is filled and emptied while replicas answer, some of them more than once
(`Quorum.tracked`). What counts at the end is who acknowledged since the last reset
(`Quorum.mem_tracked`), each member once; so the two trackers are two sets of members, of more
than `n` members together.

**`quorums_intersect`**: the accepted configurations, and the member that two quorums share.
-/

namespace PaxosLog

/-! ## Trackers over time -/

/-- What is done to a tracker. -/
inductive Tracking where
  /-- A replica acknowledges the round. -/
  | ack (id : ReplicaId)
  /-- The round starts over. -/
  | reset
deriving DecidableEq

namespace Quorum

/-- Does one thing to a tracker. -/
def track (q : Quorum) : Tracking → Quorum
  | .ack id => q.ack id
  | .reset => .empty

/-- A fresh tracker after all of this was done to it. -/
def tracked (ops : List Tracking) : Quorum := ops.foldl track .empty

theorem tracked_snoc (ops : List Tracking) (op : Tracking) :
    tracked (ops ++ [op]) = (tracked ops).track op := by
  simp [tracked]

end Quorum

/-- `id` acknowledged the round, and the round did not start over since. -/
def Acknowledged (ops : List Tracking) (id : ReplicaId) : Prop :=
  ∃ before since, ops = before ++ .ack id :: since ∧ .reset ∉ since

variable {ops : List Tracking} {id : ReplicaId}

theorem not_acknowledged_nil : ¬ Acknowledged [] id := by
  rintro ⟨before, since, heq, -⟩
  simp at heq

theorem not_acknowledged_reset : ¬ Acknowledged (ops ++ [.reset]) id := by
  rintro ⟨before, since, heq, hsince⟩
  rcases List.eq_nil_or_concat' since with rfl | ⟨since, op, rfl⟩
  · have := (List.append_inj' heq rfl).2
    simp at this
  · rw [← List.cons_append, ← List.append_assoc] at heq
    have := (List.append_inj' heq rfl).2
    simp_all

theorem acknowledged_ack {a : ReplicaId} :
    Acknowledged (ops ++ [.ack a]) id ↔ Acknowledged ops id ∨ id = a := by
  constructor
  · rintro ⟨before, since, heq, hsince⟩
    rcases List.eq_nil_or_concat' since with rfl | ⟨since, op, rfl⟩
    · have := (List.append_inj' heq rfl).2
      simp_all
    · rw [← List.cons_append, ← List.append_assoc] at heq
      obtain ⟨rfl, -⟩ := List.append_inj' heq rfl
      exact .inl ⟨before, since, rfl, fun h => hsince (by simp [h])⟩
  · rintro (⟨before, since, rfl, hsince⟩ | rfl)
    · exact ⟨before, since ++ [.ack a], by simp, by simp [hsince]⟩
    · exact ⟨ops, [], rfl, by simp⟩

/-- **A tracker holds who acknowledged since the last reset.** -/
theorem Quorum.mem_tracked : id ∈ (tracked ops).voters ↔ Acknowledged ops id := by
  induction ops using List.reverseRecOn with
  | nil => simp [tracked, empty, not_acknowledged_nil]
  | append_singleton ops op ih =>
    rw [tracked_snoc]
    cases op with
    | ack a => rw [track, mem_ack, acknowledged_ack, ih]
    | reset => simp [track, empty, not_acknowledged_reset]

theorem Acknowledged.mem (h : Acknowledged ops id) : .ack id ∈ ops := by
  obtain ⟨before, since, rfl, -⟩ := h
  simp

/-! ## Accepted sizes -/

/-- Given sizes are accepted if both are in range, their sum is a 64-bit number, and they exceed the
cluster together. -/
theorem QuorumSpec.flexible_eq_ok {n phase1 phase2 : Nat} {spec : QuorumSpec} :
    flexible n phase1 phase2 = .ok spec ↔
      phase1 + phase2 < UInt64.size ∧
        spec.clusterSize = n ∧ spec.phase1 = phase1 ∧ spec.phase2 = phase2 := by
  constructor
  · intro h
    unfold flexible at h
    repeat' split at h
    all_goals cases h
    exact ⟨by omega, rfl, rfl, rfl⟩
  · rintro ⟨hsum, rfl, rfl, rfl⟩
    have hpos : spec.clusterSize ≠ 0 := by
      have := spec.phase1_pos
      have := spec.phase1_le
      omega
    rw [flexible, if_neg hpos, dif_pos ⟨spec.phase1_pos, spec.phase1_le⟩,
      dif_pos ⟨spec.phase2_pos, spec.phase2_le⟩, if_neg (by omega), dif_pos spec.overlap]

/-- A majority for both phases is what one gets by asking for it. -/
theorem QuorumSpec.majority_eq_flexible {n : Nat} (hn : n < 2 ^ 63) :
    majority n = flexible n (majorityOf n) (majorityOf n) := by
  unfold majority
  split
  · next h => rw [flexible, if_pos h]
  · next h =>
    refine (flexible_eq_ok.mpr ⟨?_, rfl, rfl, rfl⟩).symm
    simp only [majorityOf, UInt64.size]
    omega

namespace Config

variable {config : Config} {n : Nat} {spec : QuorumSpec}

/-- The promises that are needed in a cluster of `n`. -/
def phase1Size (c : Config) (n : Nat) : Nat := (c.phase1Quorum.map (·.toNat)).getD (n / 2 + 1)

/-- The votes that are needed in a cluster of `n`. -/
def phase2Size (c : Config) (n : Nat) : Nat := (c.phase2Quorum.map (·.toNat)).getD (n / 2 + 1)

/-- It makes no difference whether majorities are asked for or left out. -/
theorem quorums_eq_flexible (hn : n < 2 ^ 63) :
    config.quorums n = QuorumSpec.flexible n (config.phase1Size n) (config.phase2Size n) := by
  unfold quorums
  split
  · next h₁ h₂ =>
    rw [QuorumSpec.majority_eq_flexible hn]
    simp [phase1Size, phase2Size, QuorumSpec.majorityOf, h₁, h₂]
  · rfl

/-- What comes of a configuration has the sizes that were asked for. -/
theorem quorums_eq_ok (hn : n < 2 ^ 63) :
    config.quorums n = .ok spec ↔ spec.clusterSize = n ∧
      spec.phase1 = config.phase1Size n ∧ spec.phase2 = config.phase2Size n := by
  rw [quorums_eq_flexible hn, QuorumSpec.flexible_eq_ok, and_iff_right_iff_imp]
  rintro ⟨hsize, h₁, h₂⟩
  have := spec.phase1_le
  have := spec.phase2_le
  simp only [UInt64.size]
  omega

/-- No sum of sizes leaves its 64 bits. -/
theorem quorums_ne_faulted (hn : n < 2 ^ 63) (f : Fault) :
    config.quorums n ≠ .error (.faulted f) := by
  rw [quorums_eq_flexible hn, QuorumSpec.flexible]
  intro h
  repeat' split at h
  all_goals cases h
  simp only [UInt64.size] at *
  omega

/-- Which sizes are accepted. -/
theorem exists_quorums (hn : n < 2 ^ 63) :
    (∃ spec, config.quorums n = .ok spec) ↔
      1 ≤ n ∧ (1 ≤ config.phase1Size n ∧ config.phase1Size n ≤ n) ∧
        (1 ≤ config.phase2Size n ∧ config.phase2Size n ≤ n) ∧
        n < config.phase1Size n + config.phase2Size n := by
  constructor
  · rintro ⟨spec, h⟩
    obtain ⟨rfl, h₁, h₂⟩ := (quorums_eq_ok hn).mp h
    rw [← h₁, ← h₂]
    exact ⟨Nat.le_trans spec.phase1_pos spec.phase1_le, ⟨spec.phase1_pos, spec.phase1_le⟩,
      ⟨spec.phase2_pos, spec.phase2_le⟩, spec.overlap⟩
  · rintro ⟨-, ⟨h₁, h₁'⟩, ⟨h₂, h₂'⟩, hsum⟩
    exact ⟨⟨n, _, _, h₁, h₂, h₁', h₂', hsum⟩, (quorums_eq_ok hn).mpr ⟨rfl, rfl, rfl⟩⟩

end Config

/-! ## Quorums -/

/-- A tracker filled by members holds members, each once. -/
theorem Quorum.tracked_subset {members : List ReplicaId} (h : ∀ id, .ack id ∈ ops → id ∈ members) :
    (tracked ops).voters ⊆ members :=
  fun id hid => h id (mem_tracked.mp hid).mem

/-- **The accepted configurations intersect, and exactly the right ones are accepted.** In a cluster
of `n` members a configuration is accepted if and only if there is a member and both sizes, with
`n / 2 + 1` for one that is not given, lie in `1..n` and exceed `n` together; otherwise it is
refused, and setting it up never faults. What comes of it has these sizes, and its thresholds can
always be asked for. Any two trackers that members acknowledged, in any order, repeatedly and with
any resets, have a member in common as soon as one has enough promises and the other enough votes:
that member acknowledged both rounds since they last started over. -/
theorem quorums_intersect {config : Config} {n : Nat} (hn : n < 2 ^ 63) :
    ((∃ spec, config.quorums n = .ok spec) ↔
      1 ≤ n ∧ (1 ≤ config.phase1Size n ∧ config.phase1Size n ≤ n) ∧
        (1 ≤ config.phase2Size n ∧ config.phase2Size n ≤ n) ∧
        n < config.phase1Size n + config.phase2Size n) ∧
    (∀ f, config.quorums n ≠ .error (.faulted f)) ∧
    ∀ spec, config.quorums n = .ok spec →
      spec.clusterSize = n ∧ spec.phase1 = config.phase1Size n ∧
      spec.phase2 = config.phase2Size n ∧
      (∀ q : Quorum, q.thresholdReached spec.clusterSize spec.phase1 = .ok (spec.phase1Reached q) ∧
        q.thresholdReached spec.clusterSize spec.phase2 = .ok (spec.phase2Reached q)) ∧
      ∀ members : List ReplicaId, members.length = n →
      ∀ first second : List Tracking, (∀ id, .ack id ∈ first → id ∈ members) →
        (∀ id, .ack id ∈ second → id ∈ members) →
        spec.phase1Reached (.tracked first) = true → spec.phase2Reached (.tracked second) = true →
        ∃ id ∈ members, Acknowledged first id ∧ Acknowledged second id := by
  refine ⟨Config.exists_quorums hn, Config.quorums_ne_faulted hn, fun spec h => ?_⟩
  obtain ⟨hsize, h₁, h₂⟩ := (Config.quorums_eq_ok hn).mp h
  refine ⟨hsize, h₁, h₂, fun q => ⟨spec.thresholdReached_phase1 q, spec.thresholdReached_phase2 q⟩,
    fun members hlength first second hfirst hsecond hq₁ hq₂ => ?_⟩
  have hq₁ : spec.phase1 ≤ (Quorum.tracked first).voters.length := of_decide_eq_true hq₁
  have hq₂ : spec.phase2 ≤ (Quorum.tracked second).voters.length := of_decide_eq_true hq₂
  have hlt : members.length <
      (Quorum.tracked first).voters.length + (Quorum.tracked second).voters.length := by
    have := spec.overlap
    omega
  obtain ⟨id, hid₁, hid₂⟩ := exists_common_of_length (Quorum.tracked first).distinct
    (Quorum.tracked second).distinct (Quorum.tracked_subset hfirst) (Quorum.tracked_subset hsecond)
    hlt
  exact ⟨id, Quorum.tracked_subset hfirst hid₁, Quorum.mem_tracked.mp hid₁,
    Quorum.mem_tracked.mp hid₂⟩

/-- Four members of which two may promise and three must vote: the promises of an earlier round do
not count, repeated votes count once, and replica 4 is in both quorums. -/
theorem quorums_intersect_flexible :
    (4 : Nat) < 2 ^ 63 ∧
    ∃ spec, Config.quorums ⟨100, 100, some 2, none⟩ 4 = .ok spec ∧
      spec.phase1 = 2 ∧ spec.phase2 = 3 ∧
      let promises : List Tracking := [.ack 1, .ack 2, .reset, .ack 3, .ack 3, .ack 4]
      let votes : List Tracking := [.ack 1, .ack 2, .ack 1, .ack 4]
      spec.phase1Reached (.tracked promises) = true ∧ spec.phase2Reached (.tracked votes) = true ∧
      ∃ id ∈ [1, 2, 3, 4], Acknowledged promises id ∧ Acknowledged votes id := by
  have hn : (4 : Nat) < 2 ^ 63 := by decide
  obtain ⟨haccepted, -, hmeet⟩ := @quorums_intersect ⟨100, 100, some 2, none⟩ 4 hn
  obtain ⟨spec, hspec⟩ := haccepted.mpr (by decide)
  obtain ⟨-, h₁, h₂, -, hmember⟩ := hmeet spec hspec
  have hq₁ : spec.phase1 = 2 := h₁
  have hq₂ : spec.phase2 = 3 := h₂
  have hreached₁ : spec.phase1Reached
      (.tracked [.ack 1, .ack 2, .reset, .ack 3, .ack 3, .ack 4]) = true := by
    rw [QuorumSpec.phase1Reached, hq₁]
    decide
  have hreached₂ : spec.phase2Reached (.tracked [.ack 1, .ack 2, .ack 1, .ack 4]) = true := by
    rw [QuorumSpec.phase2Reached, hq₂]
    decide
  exact ⟨hn, spec, hspec, hq₁, hq₂, hreached₁, hreached₂,
    hmember [1, 2, 3, 4] rfl _ _ (by simp) (by simp) hreached₁ hreached₂⟩

end PaxosLog
