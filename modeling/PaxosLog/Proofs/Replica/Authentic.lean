import PaxosLog.Proofs.Replica.Absorb

/-!
# Messages that say nothing false in the name of a replica

Nobody else opens the ballots of a replica, and nobody else asks for votes under them. So a message
that carries one was preceded by the request for promises that opened it, and a message that cites
a proposal under one by the request for votes. `Message.Authentic` says this, of the effects that
the replica had so far; what the message says about the ballots of others is not restricted.

`Replica.AuthenticRun` is a run in which every message is authentic.

* `Authored`: what then holds between two inputs. Every ballot that the replica opened is at most
  its own; what it proposed under its ballot is in its log, and it leads; and every vote of its log
  under a ballot of its own is for something that it proposed.
* **`Replica.AuthenticRun.dutiful`**, `Replica.AuthenticRun.authored`: a run leaves the replica
  dutiful and its ballots authored.
-/

namespace PaxosLog

/-- The proposals that a message cites: the one that it asks votes for, the one that it announces
as chosen, or the ones that it reports. -/
def Message.cited : Message → List Accept
  | .accept m => [m]
  | .commit m => [⟨m.ballot, m.slot, m.command⟩]
  | .promise m => m.log.toList.map fun (s, p) => ⟨p.ballot, s, p.command⟩
  | _ => []

/-- A promise cites the entries that it reports. -/
theorem Message.mem_cited_promise {m : Promise} {s : Slot} {p : PromisedEntry}
    (hp : m.log[s]? = some p) : ⟨p.ballot, s, p.command⟩ ∈ (Message.promise m).cited :=
  List.mem_map.mpr ⟨(s, p), Std.ExtTreeMap.mem_toList_iff_getElem?_eq_some.mpr hp, rfl⟩

/-- The message carries and cites ballots of the replica `id` only as its effects `sent` bear
out. -/
structure Message.Authentic (id : ReplicaId) (sent : List Effect) (m : Message) : Prop where
  opened : m.ballot.owner = some id → m.ballot ∈ sent.filterMap Effect.opened?
  asked : ∀ a ∈ m.cited, a.ballot.owner = some id → .broadcast (.accept a) ∈ sent

instance (id : ReplicaId) (sent : List Effect) (m : Message) : Decidable (m.Authentic id sent) :=
  decidable_of_iff (_ ∧ _) ⟨fun h => ⟨h.1, h.2⟩, fun h => ⟨h.opened, h.asked⟩⟩

/-- The input is no message or an authentic one. -/
def Input.Authentic (id : ReplicaId) (sent : List Effect) : Input → Prop
  | .message m => m.Authentic id sent
  | _ => True

instance (id : ReplicaId) (sent : List Effect) :
    (input : Input) → Decidable (input.Authentic id sent)
  | .message m => inferInstanceAs (Decidable (m.Authentic id sent))
  | .request _ => isTrue trivial
  | .elect => isTrue trivial
  | .backoffElapsed => isTrue trivial

theorem mem_opened {effects : List Effect} {b : Ballot} :
    b ∈ effects.filterMap Effect.opened? ↔ ∃ k, .broadcast (.prepare ⟨b, k⟩) ∈ effects := by
  rw [List.mem_filterMap]
  constructor
  · rintro ⟨x, hx, hb⟩
    cases x with
    | broadcast m =>
      cases m with
      | prepare m => cases hb; exact ⟨m.start, hx⟩
      | _ => cases hb
    | _ => cases hb
  · rintro ⟨k, hx⟩
    exact ⟨_, hx, rfl⟩

variable {ρ σ : Type}

/-- What a replica knows about its own ballots, after the effects `sent`. -/
structure Authored (sent : List Effect) (r : Replica ρ σ) : Prop where
  opened : ∀ m, .broadcast (.prepare m) ∈ sent → m.ballot ≤ r.ballot
  asked : ∀ m, .broadcast (.accept m) ∈ sent → m.ballot ≤ r.ballot ∧
    (m.ballot = r.ballot → r.active = true ∧ r.log.Covers m.slot ⟨m.command, m.ballot, false⟩)
  own : ∀ s e, r.log.Open s e → e.ballot.owner = some r.id →
    .broadcast (.accept ⟨e.ballot, s, e.command⟩) ∈ sent

namespace Authored

theorem start {id : ReplicaId} {n : Nat} {config : Config} {source : ρ} {machine : σ}
    {r : Replica ρ σ} (h : Replica.start id n config source machine = .ok r) : Authored [] r := by
  obtain ⟨quorums, rfl⟩ := Replica.start_eq_ok h
  exact ⟨by simp, by simp, fun s e ho => absurd ho Log.not_open_empty⟩

variable {sent : List Effect} {r : Replica ρ σ}

/-- An authentic message that is not an announcement brings no higher ballot of the replica's
own. -/
theorem foreign (h : Authored sent r) {m : Message} (hm : m.Authentic r.id sent)
    (hlt : r.ballot < m.ballot) : m.ballot.owner ≠ some r.id := by
  intro ho
  obtain ⟨k, hx⟩ := mem_opened.mp (hm.opened ho)
  exact absurd (Std.lt_of_lt_of_le hlt (h.opened _ hx)) Std.lt_irrefl

/-- The replica has taken in its own requests for votes. -/
theorem absorbed (h : Authored sent r) {m : Accept} (hm : (Message.accept m).Authentic r.id sent)
    (ho : m.ballot.owner = some r.id) : r.Absorbed (.accept m) := by
  obtain ⟨hle, hsame⟩ := h.asked m (hm.asked m (List.mem_singleton.mpr rfl) ho)
  exact .inr ⟨hle, fun hb => (hsame hb).2⟩

/-- A replica with a vote of its log under its ballot leads. -/
theorem active (h : Authored sent r) {s : Slot} {e : LogEntry} (ho : r.log.Open s e)
    (hb : e.ballot = r.ballot) (hown : r.ballot.owner = some r.id) : r.active = true :=
  ((h.asked _ (h.own s e ho (hb ▸ hown))).2 hb).1

variable [RandomSource ρ] [StateMachine σ] {before : Replica ρ σ} {input : Input} {t t' : Turn ρ σ}
  {prior : List Effect}

omit [StateMachine σ] [RandomSource ρ] in
/-- Proposals of the replica that an authentic input cites. -/
theorem cited_of_input (hauth : input.Authentic t.id prior) {m : Message}
    (hi : input = .message m) {a : Accept} (ha : a ∈ m.cited) (ho : a.ballot.owner = some t.id) :
    .broadcast (.accept a) ∈ prior := by
  subst hi
  exact Message.Authentic.asked hauth a ha ho

/-- **Every move keeps this.** -/
theorem move (h : Move before input t t') (hauth : input.Authentic t.id prior)
    (ha : Authored (prior ++ t.effects) t.toReplica) :
    Authored (prior ++ t'.effects) t'.toReplica := by
  have hnew : ∀ {x}, x ∈ prior ++ t'.effects → x.IsMessage →
      x ∈ prior ++ t.effects ∨ Emits before input t t' x := by
    intro x hx hm
    rcases List.mem_append.mp hx with hx | hx
    · exact .inl (List.mem_append_left _ hx)
    · exact (h.emits hx hm).imp_left (List.mem_append_right _)
  have hold : ∀ {x}, x ∈ prior ++ t.effects → x ∈ prior ++ t'.effects := by
    intro x hx
    rcases List.mem_append.mp hx with hx | hx
    · exact List.mem_append_left _ hx
    · exact List.mem_append_right _ (h.effects_sub hx)
  refine ⟨fun m hx => ?_, fun m hx => ?_, fun s e ho hown => ?_⟩
  · rcases hnew hx trivial with hx | hemits
    · exact Std.le_trans (ha.opened m hx) h.ballot_le
    · cases hemits with
      | prepare hlog hsame hlt ho => exact Std.le_refl _
  · rcases hnew hx trivial with hx | hemits
    · obtain ⟨hle, hsame⟩ := ha.asked m hx
      refine ⟨Std.le_trans hle h.ballot_le, fun hb => ?_⟩
      obtain ⟨hbt, hstay⟩ := h.ballot_stays hle hb
      obtain ⟨hact, hcov⟩ := hsame hbt
      exact ⟨h.active_kept hact hstay, h.covers (fun _ _ => hle) hcov⟩
    · cases hemits with
      | ask s e hact hb hs hs' hc heb hnew =>
        exact ⟨Std.le_refl _, fun _ => ⟨h.active_kept hact hb,
          e, hs', .inr ⟨rfl, heb ▸ Std.le_refl _⟩⟩⟩
  · rw [h.id_eq] at hown
    cases h.origin ho.entry with
    | kept e₀ hs hb hc hst hacks =>
      rw [hb, hc]
      exact hold (ha.own s e₀ ⟨hs, hst ▸ ho.vote⟩ (hb ▸ hown))
    | asked hc hb hx hacks => exact List.mem_append_right _ hx
    | voted hc hi hb =>
      exact List.mem_append_left _ (cited_of_input hauth hi (List.mem_singleton.mpr rfl) hown)
    | reported m p hi hp hst hc hb hm hnew =>
      refine List.mem_append_left _ (cited_of_input hauth hi ?_ hown)
      rw [hb ho.vote, hc]
      exact Message.mem_cited_promise hp
    | chosen e₀ hs he hx => exact absurd ho.vote (by simp [he])
    | learned b hc hi => exact absurd (hc.symm.trans ho.vote) (by simp)

end Authored

variable [RandomSource ρ] [StateMachine σ]

/-- What authentic inputs make of a replica `r` whose effects so far are `sent`: the state after
them, and the effects that came with them. -/
inductive Replica.AuthenticRun (sent : List Effect) (r : Replica ρ σ) :
    List Input → Replica ρ σ → List Effect → Prop
  | start : AuthenticRun sent r [] r []
  | step {inputs : List Input} {r₁ r₂ : Replica ρ σ} {effects out : List Effect}
      (h : AuthenticRun sent r inputs r₁ effects) (now : Duration) (input : Input)
      (ha : input.Authentic r.id (sent ++ effects)) (hs : r₁.step now input = .ok (r₂, out)) :
      AuthenticRun sent r (inputs ++ [input]) r₂ (effects ++ out)

namespace Replica.AuthenticRun

variable {r r' : Replica ρ σ} {inputs : List Input} {sent effects : List Effect}

theorem run (h : r.AuthenticRun sent inputs r' effects) : r.Run inputs r' effects := by
  induction h with
  | start => exact .start
  | step h now input ha hs ih => exact ih.step now input hs

/-- The own ballots in the log and in authentic messages are what the replica made them. -/
theorem authored (h : r.AuthenticRun sent inputs r' effects) (ht : Tidy r)
    (ha : Authored sent r) : Authored (sent ++ effects) r' := by
  induction h with
  | start => rwa [List.append_nil]
  | @step inputs r₁ r₂ effects out h now input hauth hs ih =>
    have ht₁ := h.run.tidy ht
    rw [← h.run.id_eq ht] at hauth
    obtain ⟨t, hmoves, rfl, rfl⟩ := moves_of_step (fun ha => (ht₁.lead ha).1) hs
    rw [← List.append_assoc]
    suffices hall : t.id = r₁.id ∧ Authored ((sent ++ effects) ++ t.effects) t.toReplica from
      hall.2
    clear hs
    induction hmoves with
    | refl => exact ⟨rfl, by simpa using ih⟩
    | tail _ hmove ihm =>
      obtain ⟨hid, hauthored⟩ := ihm
      exact ⟨hmove.id_eq.trans hid, hauthored.move hmove (hid ▸ hauth)⟩

/-- **Nothing is left undone.** A request for votes in the own name is the only message that a
dutiful replica must have taken in already. -/
theorem dutiful (h : r.AuthenticRun sent inputs r' effects) (ht : Tidy r) (hr : Rested r)
    (hd : Dutiful r) (ha : Authored sent r) : Dutiful r' := by
  induction h with
  | start => exact hd
  | @step inputs r₁ r₂ effects out h now input hauth hs ih =>
    have ht₁ := h.run.tidy ht
    have hauthored := h.authored ht ha
    rw [← h.run.id_eq ht] at hauth
    by_cases hown : ∃ m, input = .message (.accept m) ∧ m.ballot.owner = some r₁.id
    · obtain ⟨m, rfl, ho⟩ := hown
      obtain ⟨echo, hecho, -⟩ :=
        step_of_absorbed ht₁ (h.run.rested ht hr).idle ih (hauthored.absorbed hauth ho) now
      rw [hecho] at hs
      cases hs
      exact ih
    · refine dutiful_of_step ht₁ ih (fun m hi _ hlt => ?_) (fun m hi ho => hown ⟨m, hi, ho⟩) hs
      subst hi
      exact hauthored.foreign hauth hlt

end Replica.AuthenticRun

/-! ## Feeding a replica with authentic inputs -/

namespace Replica

/-- Gives authentic inputs to a replica one after another, at time zero. -/
def feedAuthentic (id : ReplicaId) (sent : List Effect) :
    List Input → Replica ρ σ × List Effect → Option (Replica ρ σ × List Effect)
  | [], p => some p
  | input :: inputs, (r, effects) =>
    if input.Authentic id (sent ++ effects) then
      match r.step .zero input with
      | .error _ => none
      | .ok (r', out) => feedAuthentic id sent inputs (r', effects ++ out)
    else none

theorem authenticRun_of_feed {r : Replica ρ σ} {sent : List Effect} {inputs done : List Input}
    {p p' : Replica ρ σ × List Effect} (hp : r.AuthenticRun sent done p.1 p.2)
    (h : feedAuthentic r.id sent inputs p = some p') :
    r.AuthenticRun sent (done ++ inputs) p'.1 p'.2 := by
  induction inputs generalizing p done with
  | nil => cases h; rwa [List.append_nil]
  | cons input inputs ih =>
    unfold feedAuthentic at h
    split at h
    · rename_i ha
      split at h
      · cases h
      · rename_i r' out hs
        have hrun := ih (hp.step .zero input ha hs) h
        rwa [List.append_assoc] at hrun
    · cases h

/-- A run with authentic inputs that ends as the check says. -/
theorem AuthenticRun.exists_of_feed (r : Replica ρ σ) (sent : List Effect) (inputs : List Input)
    (check : Replica ρ σ × List Effect → Prop) [DecidablePred check]
    (h : (feedAuthentic r.id sent inputs (r, [])).any (fun p => check p) = true) :
    ∃ r' effects, r.AuthenticRun sent inputs r' effects ∧ check (r', effects) := by
  obtain ⟨p, hp, hc⟩ := (Option.any_eq_true _ _).mp h
  exact ⟨p.1, p.2, authenticRun_of_feed (p := (r, [])) .start hp, of_decide_eq_true hc⟩

end Replica

end PaxosLog
