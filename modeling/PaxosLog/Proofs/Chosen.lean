import Mathlib.Data.List.Perm.Basic
import PaxosLog.Proofs.Network.Past

/-!
# Chosen commands stay

Once `phase2` replicas have voted for a command at a slot under a ballot, votes at this slot are
asked for nothing else under that ballot or any higher one. The argument is an induction on
ballots: a leader that asks for a command had a quorum of promises, one of which comes from a
replica that voted; so the leader's command is that of the last vote below its ballot, and that
vote is under the ballot of the choice or a higher one.

**`Network.chosen_stays`**: in every run, whatever the order of its steps.
-/

namespace PaxosLog

/-- Two sets of members of more than all members together share one. -/
theorem exists_common_of_length {α : Type} {members xs ys : List α} (hx : xs.Nodup) (hy : ys.Nodup)
    (hxm : xs ⊆ members) (hym : ys ⊆ members) (h : members.length < xs.length + ys.length) :
    ∃ a, a ∈ xs ∧ a ∈ ys := by
  by_contra hnone
  have hdisjoint : (xs ++ ys).Nodup := by
    rw [List.nodup_append]
    refine ⟨hx, hy, ?_⟩
    rintro a ha _ hb rfl
    exact hnone ⟨a, ha, hb⟩
  have hsub : xs ++ ys ⊆ members := List.append_subset.mpr ⟨hxm, hym⟩
  have hle := (List.subperm_of_subset hdisjoint hsub).length_le
  rw [List.length_append] at hle
  omega

variable {ρ σ : Type} [RandomSource ρ] [StateMachine σ] {spec : QuorumSpec}

omit [RandomSource ρ] [StateMachine σ] in
/-- What `phase2` replicas voted for is all that votes are asked for from that ballot on. -/
theorem Sound.stays {v : View ρ σ} (h : Sound spec v) {voters : List ReplicaId}
    (hdistinct : voters.Nodup) (hq : spec.phase2 ≤ voters.length) {b₀ : Ballot} {s : Slot}
    {c₀ : Command} (hvoted : ∀ r ∈ voters, v.Voted r b₀ s c₀) {b : Ballot} {c : Command}
    (hle : b₀ ≤ b) (hasked : v.Asked b s c) : c = c₀ := by
  -- Induction on the ballot that asks; the last vote of a promise quorum leads to a lower one.
  induction hn : b.rank using Nat.strongRecOn generalizing b with
  | ind n ih =>
    by_cases heq : b₀ = b
    · subst heq
      obtain ⟨r, hr⟩ : ∃ r, r ∈ voters := List.exists_mem_of_length_pos (by
        have := spec.phase2_pos
        omega)
      exact h.voting.unique b₀ s c c₀ hasked (h.voting.voted r b₀ s c₀ (hvoted r hr)).2.1
    · have hlt : b₀ < b := by grind
      obtain ⟨quorum, hdistinct', hq', hmem, hlast⟩ := h.backing.safe b s c hasked
      have hmembers : voters ⊆ v.members := by
        intro r hr
        rcases hvoted r hr with ⟨i, hd⟩ | ⟨q, hd⟩
        · exact h.orderly.member _ _ _ hd
        · exact h.orderly.member _ _ _ hd
      have hsize : v.members.length < quorum.length + voters.length := by
        have := spec.overlap
        have := h.orderly.size
        omega
      obtain ⟨r, hr, hr₀⟩ := exists_common_of_length hdistinct' hdistinct
        (fun r hr => (hmem r hr).1) hmembers hsize
      have hvote := hvoted r hr₀
      rcases hlast with hnone | ⟨b₁, hb₁, hasked₁, hlast⟩
      · have := hnone r hr b₀ c₀ hvote
        exact absurd (Std.lt_of_lt_of_le hlt this) Std.lt_irrefl
      · have hle₁ := hlast r hr b₀ c₀ hvote hlt
        exact ih b₁.rank (hn ▸ Ballot.lt_iff_rank_lt.mp hb₁) hle₁ hasked₁ rfl

namespace Network

variable {net : Network ρ σ}

/-- What votes are asked for from the ballot of a choice on. -/
theorem Chosen.asked_eq (hr : Reachable spec net) {b₀ b : Ballot} {s : Slot} {c₀ c : Command}
    (hc : net.Chosen spec b₀ s c₀) (hle : b₀ ≤ b) (hasked : net.view.Asked b s c) : c = c₀ := by
  obtain ⟨voters, hdistinct, hq, hvoted⟩ := hc
  exact (hr.view (sound spec)).stays hdistinct hq (fun r hr' => hr.voted_iff.mpr (hvoted r hr'))
    hle hasked

/-- **A chosen command stays**: once `phase2` distinct replicas have voted for `c₀` at slot `s`
under `b₀`, votes at `s` are asked for no other command under `b₀` or any higher ballot, neither
before nor after. -/
theorem chosen_stays (hr : Reachable spec net) {b₀ b : Ballot} {s : Slot} {c₀ c : Command}
    (hc : Chosen spec net b₀ s c₀) (hle : b₀ ≤ b) {o : Occurrence ρ σ} (ho : o ∈ net.past)
    (hx : o.Asks b s c) : c = c₀ :=
  Chosen.asked_eq hr hc hle ⟨o.id, o.input, o, ho, rfl, rfl, hx⟩

/-- Replicas 1 and 2 vote for a command, and replica 3 is elected by 2 and proposes it again. -/
theorem chosen_stays_reelected : ∃ net : Network Script Journal, Reachable QuorumSpec.three net ∧
    net.Chosen .three ⟨1, some 1⟩ 1 (.client [65]) ∧ (⟨1, some 1⟩ : Ballot) ≤ ⟨1, some 3⟩ ∧
    ∃ o ∈ net.past, o.Asks ⟨1, some 3⟩ 1 (.client [65]) ∧
      ∀ c, o.Asks ⟨1, some 3⟩ 1 c → c = .client [65] := by
  obtain ⟨net, hs, hcheck⟩ := trio.exists_of_play
    (firstElection ++
      [(2, .message (.accept ⟨⟨1, some 1⟩, 1, .client [65]⟩)), (3, .elect),
        (2, .message (.prepare ⟨⟨1, some 3⟩, 1⟩)),
        (3, .message (.promise
          ⟨⟨1, some 3⟩, 2, .ofPairs [(1, ⟨.client [65], ⟨1, some 1⟩, false⟩)]⟩))])
    (fun net => (∃ o ∈ net.past, o.id = 1 ∧ o.Votes ⟨1, some 1⟩ 1 (.client [65])) ∧
      (∃ o ∈ net.past, o.id = 2 ∧ o.Votes ⟨1, some 1⟩ 1 (.client [65])) ∧
      ∃ o ∈ net.past, o.Asks ⟨1, some 3⟩ 1 (.client [65]))
    (by decide +kernel)
  obtain ⟨hvote₁, hvote₂, o, ho, hx⟩ := hcheck
  have hr : Reachable .three net := ⟨trio, fresh_trio, hs⟩
  have hc : net.Chosen .three ⟨1, some 1⟩ 1 (.client [65]) := by
    refine ⟨[1, 2], by decide, by decide, fun r hr => ?_⟩
    obtain rfl | rfl : r = 1 ∨ r = 2 := by simpa using hr
    · exact hvote₁
    · exact hvote₂
  have hle : (⟨1, some 1⟩ : Ballot) ≤ ⟨1, some 3⟩ := by decide
  exact ⟨net, hr, hc, hle, o, ho, hx, fun c hx => chosen_stays hr hc hle ho hx⟩

end Network

end PaxosLog
