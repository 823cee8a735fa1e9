import PaxosLog.Proofs.Network.Backing

/-!
# The past of a run

Every occurrence in the past of a reachable network is a step that was taken from an earlier
reachable network, whose past is what stands below it (`Network.Reachable.split`). This turns
statements about occurrences into statements about views:

* `accepted_of_moves`: an acknowledgement answers a request for votes, and tells a vote from a
  refusal only by the ballot of that request, which it does not carry.
* `promise_of_step`: a promise reports the log of its sender after the step.
* `Network.Reachable.voted_iff`: who voted, by its inputs and effects.
-/

namespace PaxosLog

variable {ρ σ : Type} [RandomSource ρ] [StateMachine σ]

/-! ## Answers -/

/-- Acknowledgements of a step: each answers the request for votes that the step handles, with the
ballot of that request if there was no higher one, and with the higher one otherwise. -/
theorem accepted_of_moves {before : Replica ρ σ} {input : Input} {now : Duration} {t : Turn ρ σ}
    (h : Moves before input { before with now, effects := [] } t) :
    t.id = before.id ∧ before.ballot ≤ t.ballot ∧
      ∀ q a, .send q (.accepted a) ∈ t.effects → a.sender = before.id ∧
        ∃ m, input = .message (.accept m) ∧ m.slot = a.slot ∧ m.ballot.owner = some q ∧
          (before.ballot ≤ m.ballot ∧ a.ballot = m.ballot ∨
            m.ballot < before.ballot ∧ a.ballot = before.ballot) := by
  induction h with
  | refl => exact ⟨rfl, Std.le_refl _, fun q a hx => by cases hx⟩
  | tail _ hmove ih =>
    obtain ⟨hid, hle, hacc⟩ := ih
    refine ⟨hmove.id_eq.trans hid, Std.le_trans hle hmove.ballot_le, fun q a hx => ?_⟩
    rcases hmove.emits hx trivial with hx | hemits
    · exact hacc q a hx
    · cases hemits with
      | vote m proposer hi ho hb hb' hj =>
        exact ⟨hid, m, hi, rfl, ho, Or.inl ⟨hb ▸ hle, rfl⟩⟩
      | refuse m proposer hi ho hbefore hlt hsame =>
        exact ⟨hid, m, hi, rfl, ho, Or.inr ⟨hbefore ▸ hlt, hbefore⟩⟩

/-- Promises are sent only by steps that handle a request for them. -/
theorem prepare_of_moves {before : Replica ρ σ} {input : Input} {now : Duration} {t : Turn ρ σ}
    (h : Moves before input { before with now, effects := [] } t) {q : ReplicaId} {m : Promise}
    (hx : .send q (.promise m) ∈ t.effects) : ∃ m₀, input = .message (.prepare m₀) := by
  induction h with
  | refl => cases hx
  | tail _ hmove ih =>
    rcases hmove.emits hx trivial with hx | hemits
    · exact ih hx
    · cases hemits with
      | answer m₀ candidate hi ho hle hsame => exact ⟨m₀, hi⟩

/-- A promise is what its sender knows after the step, from the asked slot on. -/
theorem promise_of_step {r r' : Replica ρ σ} {now : Duration} {m₀ : Prepare}
    {effects : List Effect} {q : ReplicaId} {m : Promise}
    (h : r.step now (.message (.prepare m₀)) = .ok (r', effects))
    (hx : .send q (.promise m) ∈ effects) : m₀.ballot.owner = some q ∧ m₀.ballot ≤ r'.ballot ∧
      m = ⟨r'.ballot, r'.id, r'.log.promised m₀.start⟩ := by
  obtain ⟨t, ht, heq⟩ := map_eq_ok.mp h
  cases heq
  simp only [Turn.onInput, Turn.onMessage, Turn.onPrepare] at ht
  split at ht
  · cases ht
    cases hx
  · rename_i candidate ho
    obtain ⟨t₁, h₁, ht⟩ := bind_eq_ok.mp ht
    cases ht
    have hle := Turn.le_ballot_of_follow h₁
    obtain ⟨_, _, _, _, rfl, hquiet⟩ := Turn.follow_eq_ok h₁
    rw [Turn.emit_effects, List.mem_append, List.mem_singleton] at hx
    rcases hx with hx | hx
    · exact absurd rfl ((hquiet _ (by simpa using hx) (.promise m)).2 q)
    · cases hx
      exact ⟨ho, hle, rfl⟩

/-- A request for promises is answered with the ballot of the replica after it, which is not below
the one that is asked for. -/
theorem promised_of_step {r r' : Replica ρ σ} {now : Duration} {m : Prepare} {effects : List Effect}
    {q : ReplicaId} (ho : m.ballot.owner = some q)
    (h : r.step now (.message (.prepare m)) = .ok (r', effects)) :
    m.ballot ≤ r'.ballot ∧
      .send q (.promise ⟨r'.ballot, r'.id, r'.log.promised m.start⟩) ∈ effects := by
  obtain ⟨t, ht, heq⟩ := map_eq_ok.mp h
  cases heq
  simp only [Turn.onInput, Turn.onMessage, Turn.onPrepare, ho] at ht
  obtain ⟨t₁, h₁, ht⟩ := bind_eq_ok.mp ht
  cases ht
  have hle := Turn.le_ballot_of_follow h₁
  exact ⟨hle, by simp⟩

/-- A request for votes is answered with the ballot of the replica after it. -/
theorem answer_of_step {r r' : Replica ρ σ} {now : Duration} {m : Accept} {effects : List Effect}
    {q : ReplicaId} (ho : m.ballot.owner = some q) (hle : r.ballot ≤ m.ballot)
    (h : r.step now (.message (.accept m)) = .ok (r', effects)) :
    .send q (.accepted ⟨m.ballot, m.slot, r.id⟩) ∈ effects := by
  obtain ⟨t, ht, heq⟩ := map_eq_ok.mp h
  cases heq
  simp only [Turn.onInput, Turn.onMessage, Turn.onAccept, ho] at ht
  rw [if_neg (Ballot.not_lt.mpr hle)] at ht
  obtain ⟨t₁, h₁, ht⟩ := bind_eq_ok.mp ht
  obtain ⟨⟨log, displaced⟩, hvote, ht⟩ := bind_eq_ok.mp ht
  cases ht
  have hb := Turn.ballot_of_follow hle h₁
  obtain ⟨_, _, _, _, rfl, -⟩ := Turn.follow_eq_ok h₁
  simp only at hb
  simp [hb]

/-- An announced command is chosen after the step. -/
theorem chosen_of_step {r r' : Replica ρ σ} {now : Duration} {m : Commit} {effects : List Effect}
    (hfirst : Slot.first ≤ m.slot) (h : r.step now (.message (.commit m)) = .ok (r', effects)) :
    ∃ e, r'.log.get? m.slot = some e ∧ e.isCommitted = true := by
  have hne : m.slot ≠ Slot.sentinel := fun h0 => absurd (h0 ▸ hfirst) (by decide)
  obtain ⟨t, ht, heq⟩ := map_eq_ok.mp h
  cases heq
  simp only [Turn.onInput, Turn.onMessage, Turn.onCommit, if_neg hne] at ht
  obtain ⟨⟨log, displaced⟩, hlearn, ht⟩ := bind_eq_ok.mp ht
  have hlearned := (Log.joined_learn hlearn).get? m.slot
  rw [if_pos rfl] at hlearned
  have hw : Works r .elect [] _ t := Turn.works_executeReady ht
  obtain ⟨e, he, hc, -⟩ := Move.moves_still_chosen (hw.carries []).moves hlearned
    (LogEntry.isCommitted_join rfl _)
  exact ⟨e, he, hc⟩

namespace Network

variable {spec : QuorumSpec} {net : Network ρ σ}

/-! ## Occurrences of a run -/

/-- `o` is a step that a member of the reachable network `net` can take. -/
structure Taken (spec : QuorumSpec) (net : Network ρ σ) (o : Occurrence ρ σ) : Prop where
  reachable : Reachable spec net
  member : o.id ∈ net.members
  before : o.before = net.replica o.id
  possible : net.Possible o.id o.input
  step : ∃ now, o.before.step now o.input = .ok (o.after, o.effects)

namespace Taken

variable {o : Occurrence ρ σ}

theorem sound (h : Taken spec net o) : Sound spec net.view := h.reachable.view (PaxosLog.sound spec)

theorem id_eq (h : Taken spec net o) : o.before.id = o.id := by
  rw [h.before]
  exact h.sound.orderly.id o.id h.member

theorem tidy (h : Taken spec net o) : Tidy o.before := by
  rw [h.before]
  exact h.sound.orderly.tidy o.id h.member

theorem moves (h : Taken spec net o) : ∃ now t,
    Moves o.before o.input { o.before with now, effects := [] } t ∧ t.toReplica = o.after ∧
      t.effects = o.effects := by
  obtain ⟨now, hstep⟩ := h.step
  obtain ⟨t, hm, hr, he⟩ := moves_of_step (fun ha => (h.tidy.lead ha).1) hstep
  exact ⟨now, t, hm, hr, he⟩

theorem steps (h : Taken spec net o) : Steps net (net.record o) := by
  obtain ⟨id, input, before, after, effects⟩ := o
  obtain ⟨now, hstep⟩ := h.step
  have hbefore := h.before
  simp only at hstep hbefore
  subst hbefore
  exact .single (.step id input now after effects h.member h.possible hstep)

theorem next (h : Taken spec net o) : Reachable spec (net.record o) := h.reachable.steps h.steps

/-- What becomes of the member. -/
theorem after_orderly (h : Taken spec net o) : o.after.id = o.id ∧ Tidy o.after := by
  have hsound := h.next.view (PaxosLog.sound spec)
  have hsame := net.replica_record_self o
  have hid := hsound.orderly.id o.id h.member
  have htidy := hsound.orderly.tidy o.id h.member
  change ((net.record o).replica o.id).id = o.id at hid
  change Tidy ((net.record o).replica o.id) at htidy
  rw [hsame] at hid htidy
  exact ⟨hid, htidy⟩

/-- What the member handles was sent by somebody. -/
theorem heard (h : Taken spec net o) {m : Message} (hi : o.input = .message m) :
    ∃ p, net.view.Sent p o.id m := by
  have hp := h.possible
  rw [hi] at hp
  exact Sent.view hp

end Taken

theorem Steps.members {net' : Network ρ σ} (hs : Steps net net') : net'.members = net.members := by
  induction hs with
  | refl => rfl
  | tail _ hstep ih => cases hstep; exact ih

/-- Steps add to the past. -/
theorem Steps.past_eq {net' : Network ρ σ} (hs : Steps net net') :
    ∃ later, net'.past = later ++ net.past := by
  induction hs with
  | refl => exact ⟨[], rfl⟩
  | tail _ hstep ih =>
    obtain ⟨later, hpast⟩ := ih
    cases hstep with
    | step id input now after effects hid hp hstep =>
      exact ⟨_ :: later, congrArg (List.cons _) hpast⟩

omit [RandomSource ρ] [StateMachine σ] in
/-- What was earlier than a step is past. -/
theorem mem_of_earlier {later earlier : List (Occurrence ρ σ)} {o a : Occurrence ρ σ}
    (h : net.past = later ++ o :: earlier) (ha : a ∈ earlier) : a ∈ net.past := by
  rw [h]
  exact List.mem_append_right _ (List.mem_cons_of_mem _ ha)

/-- **The past of a reachable network** is made of steps from earlier ones. -/
theorem Reachable.split (hr : Reachable spec net) {later earlier : List (Occurrence ρ σ)}
    {o : Occurrence ρ σ} (h : net.past = later ++ o :: earlier) :
    ∃ net₀ : Network ρ σ, Taken spec net₀ o ∧ net₀.past = earlier ∧
      Steps (net₀.record o) net := by
  obtain ⟨fresh, hf, hs⟩ := hr
  induction hs generalizing later with
  | refl =>
    rw [hf.past] at h
    simp at h
  | @tail net₁ _ hs hstep ih =>
    cases hstep with
    | step id input now after effects hid hp hstep =>
      change _ :: net₁.past = _ at h
      cases later with
      | nil =>
        obtain ⟨rfl, rfl⟩ := List.cons.inj h
        exact ⟨net₁, ⟨⟨fresh, hf, hs⟩, hid, rfl, hp, now, hstep⟩, rfl, .refl⟩
      | cons o' later =>
        obtain ⟨-, htail⟩ := List.cons.inj h
        obtain ⟨net₀, htaken, hpast, hs₀⟩ := ih htail
        exact ⟨net₀, htaken, hpast, hs₀.tail (.step id input now after effects hid hp hstep)⟩

theorem Reachable.taken (hr : Reachable spec net) {o : Occurrence ρ σ} (ho : o ∈ net.past) :
    ∃ net₀ : Network ρ σ, Taken spec net₀ o := by
  obtain ⟨later, earlier, hpast⟩ := List.append_of_mem ho
  obtain ⟨net₀, htaken, -⟩ := hr.split hpast
  exact ⟨net₀, htaken⟩

/-- What holds of fresh clusters and is kept by every step holds of every reachable network. -/
theorem Reachable.induction {P : Network ρ σ → Prop} (hfresh : ∀ net, Fresh spec net → P net)
    (hstep : ∀ net o, Taken spec net o → P net → P (net.record o)) (hr : Reachable spec net) :
    P net := by
  obtain ⟨fresh, hf, hs⟩ := hr
  induction hs with
  | refl => exact hfresh fresh hf
  | @tail net _ hs h ih =>
    cases h with
    | step id input now after effects hid hp h =>
      exact hstep net _ ⟨⟨fresh, hf, hs⟩, hid, rfl, hp, now, h⟩ ih

/-- Who voted, by its inputs and effects. -/
theorem Reachable.voted_iff (hr : Reachable spec net) {r : ReplicaId} {b : Ballot} {s : Slot}
    {c : Command} : net.view.Voted r b s c ↔ ∃ o ∈ net.past, o.id = r ∧ o.Votes b s c := by
  constructor
  · rintro (⟨i, o, ho, rfl, -, hx⟩ | ⟨q, o, ho, rfl, hi, hx⟩)
    · exact ⟨o, ho, rfl, Or.inl hx⟩
    · refine ⟨o, ho, rfl, Or.inr ⟨hi, ?_⟩⟩
      obtain ⟨net₀, htaken⟩ := hr.taken ho
      obtain ⟨now, t, hm, -, he⟩ := htaken.moves
      obtain ⟨-, -, hacc⟩ := accepted_of_moves hm
      obtain ⟨-, m, hi', -, -, hcase⟩ := hacc q _ (he ▸ hx)
      rw [hi] at hi'
      cases hi'
      rcases hcase with ⟨hle, -⟩ | ⟨hlt, heq⟩
      · exact hle
      · exact absurd (heq ▸ hlt) Std.lt_irrefl
  · rintro ⟨o, ho, rfl, hx | ⟨hi, hle⟩⟩
    · exact Or.inl ⟨o.input, o, ho, rfl, rfl, hx⟩
    · obtain ⟨net₀, htaken⟩ := hr.taken ho
      obtain ⟨now, hstep⟩ := htaken.step
      obtain ⟨p, hs⟩ := htaken.heard hi
      obtain ⟨-, i, hd⟩ := htaken.sound.orderly.broadcast_accept hs
      have howner := htaken.sound.voting.owner _ _ _ _ _ hd
      rw [hi] at hstep
      have hx := answer_of_step howner hle hstep
      rw [htaken.id_eq] at hx
      exact Or.inr ⟨p, o, ho, rfl, hi, hx⟩

/-- `phase2` distinct replicas have voted for `c` at slot `s` under `b`. -/
def Chosen (spec : QuorumSpec) (net : Network ρ σ) (b : Ballot) (s : Slot) (c : Command) : Prop :=
  ∃ voters : List ReplicaId, voters.Nodup ∧ spec.phase2 ≤ voters.length ∧
    ∀ r ∈ voters, ∃ o ∈ net.past, o.id = r ∧ o.Votes b s c

end Network

end PaxosLog
