import PaxosLog.Proofs.Conservation
import PaxosLog.Proofs.Network.Past
import PaxosLog.Proofs.Replica.Source

/-!
# Members of a cluster

What one member does in the run of a cluster is a run of that replica alone
(`Network.Reachable.run`), so that what holds of every run of one replica holds of every member.

**`Network.Reachable.sourced`**: every command in a log or a message was submitted by a client, or
is the no-op.
-/

namespace PaxosLog.Network

variable {ρ σ : Type} {net : Network ρ σ} {p : ReplicaId}

/-- What member `p` was given so far, in order. -/
def inputsOf (net : Network ρ σ) (p : ReplicaId) : List Input :=
  (net.past.filter (·.id = p)).reverse.map Occurrence.input

/-- What left member `p` so far, in order. -/
def effectsOf (net : Network ρ σ) (p : ReplicaId) : List Effect :=
  (net.past.filter (·.id = p)).reverse.flatMap Occurrence.effects

theorem mem_effectsOf {x : Effect} :
    x ∈ net.effectsOf p ↔ ∃ o ∈ net.past, o.id = p ∧ x ∈ o.effects := by
  simp only [effectsOf, List.mem_flatMap, List.mem_reverse, List.mem_filter, decide_eq_true_eq,
    and_assoc]

theorem inputsOf_record (net : Network ρ σ) (o : Occurrence ρ σ) (p : ReplicaId) :
    (net.record o).inputsOf p = net.inputsOf p ++ if o.id = p then [o.input] else [] := by
  unfold inputsOf record
  rw [List.filter_cons]
  by_cases hp : o.id = p
  · simp [hp]
  · simp [hp]

theorem effectsOf_record (net : Network ρ σ) (o : Occurrence ρ σ) (p : ReplicaId) :
    (net.record o).effectsOf p = net.effectsOf p ++ if o.id = p then o.effects else [] := by
  unfold effectsOf record
  rw [List.filter_cons]
  by_cases hp : o.id = p
  · simp [hp]
  · simp [hp]

/-- What left a member is what left it up to an earlier time, and what came after. -/
theorem effectsOf_append {t : Network ρ σ} {later : List (Occurrence ρ σ)}
    (h : net.past = later ++ t.past) (p : ReplicaId) :
    net.effectsOf p = t.effectsOf p ++
      (later.filter (·.id = p)).reverse.flatMap Occurrence.effects := by
  rw [effectsOf, h, List.filter_append, List.reverse_append, List.flatMap_append, ← effectsOf]

/-- The command was submitted by a client, or is the no-op. -/
def Sourced (net : Network ρ σ) (c : Command) : Prop :=
  c = .noop ∨ ∃ q : ClientRequest, c = .client q.command ∧ ∃ o ∈ net.past, o.input = .request q

theorem Sourced.record (o : Occurrence ρ σ) {c : Command} (h : net.Sourced c) :
    (net.record o).Sourced c :=
  h.imp_right fun ⟨q, hc, a, ha, hi⟩ => ⟨q, hc, a, List.mem_cons_of_mem _ ha, hi⟩

variable [RandomSource ρ] [StateMachine σ] {spec : QuorumSpec}

/-- **What a replica does is a run** of that replica, from its fresh state on. -/
theorem Fresh.run {fresh : Network ρ σ} (hf : Fresh spec fresh) (hs : Steps fresh net)
    (p : ReplicaId) :
    (fresh.replica p).Run (net.inputsOf p) (net.replica p) (net.effectsOf p) := by
  induction hs with
  | refl =>
    rw [inputsOf, effectsOf, hf.past]
    exact .start
  | @tail net₁ _ hs hstep ih =>
    obtain ⟨id, input, now, after, effects, hid, hpos, hstep⟩ := hstep
    rw [inputsOf_record, effectsOf_record]
    by_cases heq : id = p
    · subst heq
      rw [if_pos rfl, if_pos rfl, net₁.replica_record_self]
      exact ih.step now input hstep
    · rw [if_neg heq, if_neg heq, List.append_nil, List.append_nil,
        net₁.replica_record_ne (Ne.symm heq)]
      exact ih

/-- What a member executed is what is below its cursor. -/
theorem Fresh.executed {fresh : Network ρ σ} (hf : Fresh spec fresh) (hs : Steps fresh net)
    (hp : p ∈ fresh.members) :
    Executed (fresh.replica p).machine (net.effectsOf p) (net.replica p) := by
  obtain ⟨config, -, hstart⟩ := hf.started
  obtain ⟨source, machine, hstart⟩ := hstart p hp
  have hmachine : (fresh.replica p).machine = machine := by
    obtain ⟨quorums, hr⟩ := Replica.start_eq_ok hstart
    rw [hr]
  rw [hmachine]
  exact .of_run (.start hstart) (.start hstart) (hf.run hs p)

/-- What a member does is a run of a replica that was started. -/
theorem Reachable.run (hr : Reachable spec net) :
    ∀ p ∈ net.members, ∃ n config source machine fresh,
      Replica.start p n config source machine = .ok fresh ∧
        fresh.Run (net.inputsOf p) (net.replica p) (net.effectsOf p) := by
  obtain ⟨fresh, hf, hs⟩ := hr
  intro p hp
  obtain ⟨config, -, hstart⟩ := hf.started
  obtain ⟨source, machine, hstart⟩ := hstart p (hs.members ▸ hp)
  exact ⟨_, config, source, machine, _, hstart, hf.run hs p⟩

/-- What a member holds as chosen it holds as chosen from then on. -/
theorem Steps.still_chosen {net' : Network ρ σ} (hs : Steps net net') (hr : Reachable spec net)
    {s : Slot} {e : LogEntry} (he : (net.replica p).log.get? s = some e)
    (hc : e.isCommitted = true) :
    ∃ e', (net'.replica p).log.get? s = some e' ∧ e'.isCommitted = true ∧
      e'.command = e.command := by
  induction hs with
  | refl => exact ⟨e, he, hc, rfl⟩
  | @tail net₁ _ hs hstep ih =>
    obtain ⟨e₁, he₁, hc₁, hcmd₁⟩ := ih
    have htidy := ((hr.steps hs).view (PaxosLog.sound spec)).orderly.tidy
    obtain ⟨id, input, now, after, effects, hid, hpos, hstep⟩ := hstep
    by_cases heq : p = id
    · subst heq
      obtain ⟨t, hmoves, rfl, -⟩ := moves_of_step (fun ha => ((htidy p hid).lead ha).1) hstep
      obtain ⟨e₂, he₂, hc₂, hcmd₂⟩ := Move.moves_still_chosen hmoves he₁ hc₁
      rw [net₁.replica_record_self]
      exact ⟨e₂, he₂, hc₂, hcmd₂.trans hcmd₁⟩
    · rw [net₁.replica_record_ne heq]
      exact ⟨e₁, he₁, hc₁, hcmd₁⟩

omit [RandomSource ρ] [StateMachine σ] in
theorem Fresh.sourced (hf : Fresh spec net) (hp : p ∈ net.members) :
    (net.replica p).Only net.Sourced [] := by
  obtain ⟨config, hq, hstart⟩ := hf.started
  obtain ⟨source, machine, hs⟩ := hstart p hp
  rw [Replica.start, hq] at hs
  obtain hs := Except.ok.inj hs
  rw [← hs]
  refine ⟨fun s e he => ?_, by simp⟩
  obtain ⟨-, rfl⟩ := Log.of_get?_empty he
  exact .inl rfl

/-- If members sent only commands of clients, what a member is given carries no others. -/
theorem Taken.sourced_input {o : Occurrence ρ σ} (h : Taken spec net o)
    (hsent : ∀ a ∈ net.past, ∀ x ∈ a.effects, x.Only net.Sourced) :
    o.input.Only (net.record o).Sourced := by
  cases hi : o.input with
  | request q => exact .inr ⟨q, rfl, o, List.mem_cons_self, hi⟩
  | message m =>
    have hp := h.possible
    rw [hi] at hp
    have hm : m.Only net.Sourced := by
      obtain ⟨a, ha, hx | ⟨-, hx⟩⟩ := hp
      · exact hsent a ha _ hx
      · exact hsent a ha _ hx
    exact Message.Only.mono (fun _ => Sourced.record o) hm
  | elect => trivial
  | backoffElapsed => trivial

/-- **A step brings in no other commands**: the member holds, and sends, those of clients. -/
theorem Taken.sourced {o : Occurrence ρ σ} (h : Taken spec net o)
    (hheld : (net.replica o.id).Only net.Sourced [])
    (hsent : ∀ a ∈ net.past, ∀ x ∈ a.effects, x.Only net.Sourced) :
    o.after.Only (net.record o).Sourced [] ∧ ∀ x ∈ o.effects, x.Only (net.record o).Sourced := by
  have hlead := (h.sound.orderly.tidy o.id h.member).lead
  rw [← h.before] at hheld
  obtain ⟨now, hstep⟩ := h.step
  refine only_of_step (fun ha => ?_) (h.sourced_input hsent) (.inl rfl)
    (hheld.mono fun _ => Sourced.record o) hstep
  rw [h.before] at ha ⊢
  exact (hlead ha).1

/-- **Commands come from clients**: those that members hold, and those that they sent. -/
theorem Reachable.sourced (hr : Reachable spec net) :
    (∀ p ∈ net.members, (net.replica p).Only net.Sourced []) ∧
      ∀ o ∈ net.past, ∀ x ∈ o.effects, x.Only net.Sourced := by
  refine hr.induction (P := fun net => (∀ p ∈ net.members, (net.replica p).Only net.Sourced []) ∧
    ∀ o ∈ net.past, ∀ x ∈ o.effects, x.Only net.Sourced) ?_ ?_
  · exact fun net hf => ⟨fun p hp => hf.sourced hp, by simp [hf.past]⟩
  · rintro net o htaken ⟨hheld, hsent⟩
    obtain ⟨hafter, hout⟩ := htaken.sourced (hheld o.id htaken.member) hsent
    refine ⟨fun p hp => ?_, fun a ha x hx => ?_⟩
    · by_cases heq : p = o.id
      · subst heq
        rw [net.replica_record_self]
        exact hafter
      · rw [net.replica_record_ne heq]
        exact (hheld p hp).mono fun _ => Sourced.record o
    · rcases List.mem_cons.mp ha with rfl | ha
      · exact hout x hx
      · exact Effect.Only.mono (fun _ => Sourced.record o) (hsent a ha x hx)

end PaxosLog.Network
