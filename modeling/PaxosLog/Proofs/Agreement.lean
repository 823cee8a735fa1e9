import PaxosLog.Proofs.Chosen
import PaxosLog.Proofs.Tally

/-!
# Agreement

A command that a replica holds as chosen was announced, and an announced command is chosen if the
acknowledgements that its proposer counted are votes. Of two chosen commands for one slot, the one
under the higher ballot was asked for when the other one was chosen or can still be, so they are
equal.

A refusal that is counted breaks this: `Network.committed_eq_of_earned` holds of runs in which the
acknowledgements counted for announced commands are earned, and `Network.committed_differ` is a run
in which one is not, and two replicas execute different commands.
-/

namespace PaxosLog.Network

variable {ρ σ : Type} [RandomSource ρ] [StateMachine σ] {spec : QuorumSpec}
  {net net' : Network ρ σ}

/-- What was announced stays announced. -/
theorem Steps.announced (h : Steps net net') {s : Slot} {c : Command}
    (ha : net.view.Announced s c) : net'.view.Announced s c := by
  obtain ⟨p, i, b, o, ho, hd⟩ := ha
  obtain ⟨later, hpast⟩ := h.past_eq
  refine ⟨p, i, b, o, ?_, hd⟩
  rw [hpast]
  exact List.mem_append_right _ ho

/-- Two chosen commands are equal, if votes were asked for both. -/
theorem Chosen.eq (hr : Reachable spec net) {b₁ b₂ : Ballot} {s : Slot} {c₁ c₂ : Command}
    (h₁ : net.Chosen spec b₁ s c₁) (h₂ : net.Chosen spec b₂ s c₂)
    (ha₁ : net.view.Asked b₁ s c₁) (ha₂ : net.view.Asked b₂ s c₂) : c₁ = c₂ := by
  by_cases hle : b₁ ≤ b₂
  · exact (Chosen.asked_eq hr h₁ hle ha₂).symm
  · have hle' : b₂ ≤ b₁ := Std.le_of_lt (Std.not_le.mp hle)
    exact Chosen.asked_eq hr h₂ hle' ha₁

/-- Announced commands for one slot are equal. -/
theorem Reachable.announced_eq (hr : Reachable spec net) {s : Slot}
    (hearned : ∀ o ∈ net.past, ∀ b c, .broadcast (.commit ⟨b, s, c⟩) ∈ o.effects →
      net.Earned o.id b s c) {c₁ c₂ : Command} (h₁ : net.view.Announced s c₁)
    (h₂ : net.view.Announced s c₂) : c₁ = c₂ := by
  have hchoosing := (hr.view (choosing spec)).2
  obtain ⟨p₁, i₁, b₁, hd₁⟩ := h₁
  obtain ⟨p₂, i₂, b₂, hd₂⟩ := h₂
  have ha₁ := (hchoosing.announced _ _ _ _ _ hd₁).2
  have ha₂ := (hchoosing.announced _ _ _ _ _ hd₂).2
  obtain ⟨o₁, ho₁, -, -, hx₁⟩ := hd₁
  obtain ⟨o₂, ho₂, -, -, hx₂⟩ := hd₂
  have hchosen₁ := hr.chosen_of_earned ho₁ hx₁ (hearned o₁ ho₁ b₁ c₁ hx₁)
  have hchosen₂ := hr.chosen_of_earned ho₂ hx₂ (hearned o₂ ho₂ b₂ c₂ hx₂)
  exact Chosen.eq hr hchosen₁ hchosen₂ ha₁ ha₂

/-- **Agreement**: what any member holds as chosen for slot `s`, and what any member, the same or
another, holds as chosen for it then or later, is one command, in every run in which whatever is
counted for a command announced for `s` is earned. -/
theorem committed_eq_of_earned (hr : Reachable spec net) (hs : Steps net net') {s : Slot}
    (hearned : ∀ o ∈ net'.past, ∀ b c, .broadcast (.commit ⟨b, s, c⟩) ∈ o.effects →
      net'.Earned o.id b s c)
    {p q : ReplicaId} (hp : p ∈ net.members) (hq : q ∈ net'.members) {e e' : LogEntry}
    (he : (net.replica p).log.get? s = some e) (he' : (net'.replica q).log.get? s = some e')
    (hc : e.isCommitted = true) (hc' : e'.isCommitted = true) : e.command = e'.command := by
  have hr' := hr.steps hs
  obtain ⟨hsound, hchoosing⟩ := hr.view (choosing spec)
  obtain ⟨hsound', hchoosing'⟩ := hr'.view (choosing spec)
  have hcase := hchoosing.entry p hp s e he hc
  have hcase' := hchoosing'.entry q hq s e' he' hc'
  by_cases h0 : s = Slot.sentinel
  · subst h0
    obtain ⟨e₀, he₀, -, hnoop⟩ := (hsound.orderly.tidy p hp).sentinel
    obtain ⟨e₀', he₀', -, hnoop'⟩ := (hsound'.orderly.tidy q hq).sentinel
    obtain rfl : e₀ = e := Option.some_inj.mp (he₀.symm.trans he)
    obtain rfl : e₀' = e' := Option.some_inj.mp (he₀'.symm.trans he')
    exact hnoop.trans hnoop'.symm
  · have ha := hs.announced (hcase.resolve_left h0)
    have ha' := hcase'.resolve_left h0
    exact hr'.announced_eq hearned ha ha'

/-- Replica 1 announces a command with an earned vote of replica 2, and replica 3 learns it. -/
theorem committed_eq_learned : ∃ net : Network Script Journal, Reachable QuorumSpec.three net ∧
    ∃ e e', (net.replica 1).log.get? 1 = some e ∧ e.isCommitted = true ∧
      (net.replica 3).log.get? 1 = some e' ∧ e'.isCommitted = true ∧ e.command = e'.command := by
  obtain ⟨net, hs, hquiet, hmembers, e, he, hc, e', he', hc'⟩ := trio.exists_of_play
    (firstElection ++
      [(2, .message (.accept ⟨⟨1, some 1⟩, 1, .client [65]⟩)),
        (1, .message (.accepted ⟨⟨1, some 1⟩, 1, 2⟩)),
        (3, .message (.commit ⟨⟨1, some 1⟩, 1, .client [65]⟩))])
    (fun net => (∀ a ∈ net.past, ¬ a.Refuses) ∧
      net.members = [1, 2, 3] ∧
      ∃ e ∈ (net.replica 1).log.get? 1, e.isCommitted = true ∧
        ∃ e' ∈ (net.replica 3).log.get? 1, e'.isCommitted = true)
    (by decide +kernel)
  have hr : Reachable .three net := ⟨trio, fresh_trio, hs⟩
  have hearned : ∀ o ∈ net.past, ∀ b c, .broadcast (.commit ⟨b, 1, c⟩) ∈ o.effects →
      net.Earned o.id b 1 c := fun o _ b c _ => hr.earned_of_unrefused hquiet o.id b 1 c
  have hp : (1 : ReplicaId) ∈ net.members := by simp [hmembers]
  have hq : (3 : ReplicaId) ∈ net.members := by simp [hmembers]
  exact ⟨net, hr, e, e', he, hc, he', hc',
    committed_eq_of_earned hr .refl hearned hp hq he he' hc hc'⟩

/-- Agreement fails after `refusedRun`: replica 1 counts the refusal and announces its command.
Nobody else voted for it, so replica 2, elected by replica 3, has another one chosen. -/
theorem committed_differ :
    ¬ ∀ net net' : Network Script Journal, Reachable .three net → Steps net net' →
      ∀ s, ∀ p ∈ net.members, ∀ q ∈ net'.members, ∀ e e',
        (net.replica p).log.get? s = some e → (net'.replica q).log.get? s = some e' →
        e.isCommitted = true → e'.isCommitted = true → e.command = e'.command := by
  obtain ⟨net, hs, hmembers, e, he, hc, hcmd, e', he', hc', hcmd'⟩ := trio.exists_of_play
    (refusedRun ++
      [(2, .request ⟨1, [66]⟩), (2, .elect), (3, .message (.prepare ⟨⟨3, some 2⟩, 1⟩)),
        (2, .message (.promise ⟨⟨3, some 2⟩, 3, ∅⟩)),
        (3, .message (.accept ⟨⟨3, some 2⟩, 1, .client [66]⟩)),
        (2, .message (.accepted ⟨⟨3, some 2⟩, 1, 3⟩))])
    (fun net => net.members = [1, 2, 3] ∧
      ∃ e ∈ (net.replica 1).log.get? 1, e.isCommitted = true ∧ e.command = .client [65] ∧
        ∃ e' ∈ (net.replica 2).log.get? 1, e'.isCommitted = true ∧ e'.command = .client [66])
    (by decide +kernel)
  intro hclaim
  have hp : (1 : ReplicaId) ∈ net.members := by simp [hmembers]
  have hq : (2 : ReplicaId) ∈ net.members := by simp [hmembers]
  have heq := hclaim net net ⟨trio, fresh_trio, hs⟩ .refl 1 1 hp 2 hq e e' he he' hc hc'
  rw [hcmd, hcmd'] at heq
  simp at heq

end PaxosLog.Network
