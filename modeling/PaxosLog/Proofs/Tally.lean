import PaxosLog.Proofs.Network.Choosing
import PaxosLog.Proofs.Network.Past
import PaxosLog.Proofs.Replica.Tally

/-!
# Which acknowledgements are votes

An acknowledgement carries a slot and the current ballot of its sender, both when it answers a vote
and when it refuses one. A proposer counts it if the ballot is its own and the one of the slot, so
what it counts is a vote, or the refusal of an older proposal of its own by a replica that follows
its newer ballot by now.

* `Occurrence.Counts`: a step counts a vote of another replica; `Network.Taken.counts_iff` says
  when.
* `Occurrence.RefusesOlder`: a step refuses an older request of a proposer under its newer ballot.
* `Network.Earned`: whenever a proposer counted a replica, that replica had acknowledged a request
  for votes that it did not refuse. `Network.Reachable.earned`: it had, where nobody refuses an
  older request.
* `Network.Tallied`: votes are counted by such steps only, and a quorum of them goes before every
  announcement.

**`Network.counted_iff_accepted`**: a counted replica voted iff one of its acknowledgements was no
refusal; and announced commands are chosen where this is so.
-/

namespace PaxosLog

/-- The request for votes that is handled. -/
def Input.accept? : Input → Option Accept
  | .message (.accept m) => some m
  | _ => none

/-- The acknowledgement that is handled. -/
def Input.accepted? : Input → Option Accepted
  | .message (.accepted m) => some m
  | _ => none

theorem Input.accept?_eq_some {i : Input} {m : Accept} :
    i.accept? = some m ↔ i = .message (.accept m) := by
  unfold accept?
  split
  · simp
  · rename_i hne
    simpa using fun h => hne m h

theorem Input.accepted?_eq_some {i : Input} {m : Accepted} :
    i.accepted? = some m ↔ i = .message (.accepted m) := by
  unfold accepted?
  split
  · simp
  · rename_i hne
    simpa using fun h => hne m h

variable {ρ σ : Type}

namespace Occurrence

/-- The step handles an acknowledgement and counts `r`, another replica, among those that voted for
`c` at slot `s` under `b`. -/
def Counts (o : Occurrence ρ σ) (r : ReplicaId) (b : Ballot) (s : Slot) (c : Command) : Prop :=
  o.input.accepted?.isSome ∧ r ≠ o.id ∧ (∀ e ∈ o.before.log.get? s, r ∉ e.acks.voters) ∧
    ∃ e ∈ o.after.log.get? s, r ∈ e.acks.voters ∧ e.ballot = b ∧ e.command = c

instance (o : Occurrence ρ σ) (r : ReplicaId) (b : Ballot) (s : Slot) (c : Command) :
    Decidable (o.Counts r b s c) :=
  inferInstanceAs (Decidable (_ ∧ _ ∧ _ ∧ _))

/-- The step refuses to vote, because of a higher ballot. -/
def Refuses (o : Occurrence ρ σ) : Prop := ∃ m ∈ o.input.accept?, m.ballot < o.before.ballot

instance (o : Occurrence ρ σ) : Decidable o.Refuses :=
  inferInstanceAs (Decidable (∃ m ∈ o.input.accept?, _))

/-- The step refuses a request of `p` for votes at slot `s`, because of the higher ballot `b`. -/
def RefusesOlder (o : Occurrence ρ σ) (p : ReplicaId) (b : Ballot) (s : Slot) : Prop :=
  ∃ m ∈ o.input.accept?, m.slot = s ∧ m.ballot.owner = some p ∧ o.before.ballot = b ∧ m.ballot < b

theorem RefusesOlder.refuses {o : Occurrence ρ σ} {p : ReplicaId} {b : Ballot} {s : Slot}
    (h : o.RefusesOlder p b s) : o.Refuses := by
  obtain ⟨m, hm, -, -, rfl, hlt⟩ := h
  exact ⟨m, hm, hlt⟩

end Occurrence

namespace Network

/-- Some step of `p` counted the vote of `r`. -/
def Counted (net : Network ρ σ) (p r : ReplicaId) (b : Ballot) (s : Slot) (c : Command) : Prop :=
  ∃ o ∈ net.past, o.id = p ∧ o.Counts r b s c

/-- Whenever `p` counted a vote for `c` at slot `s` under `b`, the voter had acknowledged to `p` a
request for votes that it did not refuse. -/
def Earned (net : Network ρ σ) (p : ReplicaId) (b : Ballot) (s : Slot) (c : Command) : Prop :=
  ∀ later o earlier r, net.past = later ++ o :: earlier → o.id = p → o.Counts r b s c →
    ∃ a ∈ earlier, a.id = r ∧ a.Sends p (.accepted ⟨b, s, r⟩) ∧ ¬ a.Refuses

end Network

variable [RandomSource ρ] [StateMachine σ]

/-! ## When a vote is counted -/

namespace Network.Taken

variable {spec : QuorumSpec} {net : Network ρ σ} {o : Occurrence ρ σ}

/-- A vote is counted for the entry that holds the command under the current ballot, if that is the
replica's own and the acknowledgement carries it. -/
theorem counts_iff (h : Taken spec net o) {r : ReplicaId} {b : Ballot} {s : Slot} {c : Command} :
    o.Counts r b s c ↔ r ≠ o.id ∧ o.input = .message (.accepted ⟨b, s, r⟩) ∧
      o.before.ballot = b ∧ b.owner = some o.id ∧ ∃ e, o.before.log.get? s = some e ∧
        e.isCommitted = false ∧ e.ballot = b ∧ e.command = c ∧ r ∉ e.acks.voters := by
  have hid := h.id_eq
  obtain ⟨now, hstep⟩ := h.step
  obtain ⟨t', ht, heq⟩ := map_eq_ok.mp hstep
  have hlog : o.after.log = t'.log := (congrArg (fun x => x.1.log) heq).symm
  constructor
  · rintro ⟨hinput, hne, hold, e, he, hr, hb, hc⟩
    obtain ⟨m, hm⟩ := Option.isSome_iff_exists.mp hinput
    rw [Input.accepted?_eq_some] at hm
    simp only [hm, Turn.onInput, Turn.onMessage] at ht
    have htally : t'.log.tally s = some (b, c, e.acks) :=
      Log.tally_eq_some.mpr ⟨e, hlog ▸ he, hb, hc, rfl⟩
    -- What was not counted before the step was not there before.
    have hnew : t'.log.tally s ≠ o.before.log.tally s := by
      intro hsame
      rw [htally, eq_comm, Log.tally_eq_some] at hsame
      obtain ⟨e₀, he₀, -, -, hacks⟩ := hsame
      exact hold e₀ he₀ (hacks ▸ hr)
    rcases Turn.tally_onAccepted ht with hsame | ⟨e₀, he₀, hc₀, hb₀, hmb, ho⟩
    · exact absurd (hsame s) hnew
    · have hcounted := Turn.tally_of_counted he₀ hc₀ hb₀ hmb ho ht s
      split at hcounted
      · rename_i hslot
        rw [htally] at hcounted
        obtain ⟨rfl, rfl, hacks⟩ : b = e₀.ballot ∧ c = e₀.command ∧
            e.acks = e₀.acks.ack m.sender := by
          simpa [LogEntry.tally, LogEntry.ack] using hcounted
        subst hslot
        have hr₀ := hold e₀ he₀
        rw [hacks, Quorum.mem_ack] at hr
        have hsender := hr.resolve_left hr₀
        refine ⟨hne, ?_, hb₀.symm, ?_, e₀, he₀, hc₀, rfl, rfl, hr₀⟩
        · rw [hm, hsender, hb₀]
          show _ = Input.message (.accepted ⟨o.before.ballot, _, _⟩)
          rw [← hmb]
        · rw [hb₀, ← hid]
          exact ho
      · exact absurd hcounted hnew
  · rintro ⟨hne, hinput, hb, ho, e, he, hc, heb, hec, hr⟩
    simp only [hinput, Turn.onInput, Turn.onMessage] at ht
    have hcounted := Turn.tally_of_counted he hc (heb.trans hb.symm) hb.symm
      (by rw [← hid, ← hb] at ho; exact ho) ht s
    rw [if_pos rfl] at hcounted
    obtain ⟨e', he', hb', hc', hacks⟩ := Log.tally_eq_some.mp hcounted
    refine ⟨by rw [hinput]; rfl, hne, fun e₀ he₀ => ?_, e', hlog ▸ he', ?_, ?_, ?_⟩
    · rw [Option.mem_def, he, Option.some_inj] at he₀
      exact he₀ ▸ hr
    · rw [hacks]
      exact Quorum.mem_ack.mpr (Or.inr rfl)
    · exact hb'.trans heb
    · exact hc'.trans hec

end Network.Taken

/-! ## Nothing else is counted -/

/-- In a step that handles `input`, `r` is among the voters that `before` counted for `c` at slot
`s` under `b`, or the step counts it. -/
def Credit (before : Replica ρ σ) (input : Input) (b : Ballot) (s : Slot) (c : Command)
    (r : ReplicaId) : Prop :=
  ∃ e, before.log.get? s = some e ∧ e.isCommitted = false ∧ e.ballot = b ∧ e.command = c ∧
    (r ∈ e.acks.voters ∨ input = .message (.accepted ⟨b, s, r⟩) ∧ before.ballot = b)

/-- Every vote that an entry counts under a ballot of `id` is its own or credited. -/
def Log.Credited (log : Log) (id : ReplicaId) (before : Replica ρ σ) (input : Input) : Prop :=
  ∀ s e, log.get? s = some e → e.isCommitted = false → e.ballot.owner = some id →
    ∀ r ∈ e.acks.voters, r = id ∨ Credit before input e.ballot s e.command r

namespace Sound

variable {spec : QuorumSpec} {v v' : View ρ σ} {id : ReplicaId} {input : Input}
  {before : Replica ρ σ} {t t' : Turn ρ σ}

/-- A report does not bring back a vote under an own ballot, for the log recalls all of these. -/
theorem not_reported (h : Sound spec v) (hop : View.Hop v v' id input before t t') {s : Slot}
    {b : Ballot} {c : Command} (hasked : v.Asked b s c) (ho : b.owner = some id)
    (hnew : ∀ e₀, t.log.get? s = some e₀ → e₀.isCommitted = false ∧ e₀.ballot < b) : False := by
  obtain ⟨p, i, hd⟩ := hasked
  have hp : p = id := by
    have := h.voting.owner p i b s c hd
    rw [ho, Option.some_inj] at this
    exact this.symm
  subst hp
  obtain ⟨-, -, hrecalls⟩ := h.voting.voted p b s c (Or.inl ⟨i, hd⟩)
  rw [hop.here] at hrecalls
  obtain ⟨e₀, he₀, hcase⟩ := hrecalls
  obtain ⟨hc₀, hlt⟩ := hnew e₀ he₀
  have hle := (hcase.resolve_left (by simp [hc₀])).1
  exact absurd (Std.lt_of_lt_of_le hlt hle) Std.lt_irrefl

theorem credited_hop (h : Sound spec v) (hop : View.Hop v v' id input before t t')
    (hcredited : t.log.Credited id before input) : t'.log.Credited id before input := by
  intro s e he hc ho r hr
  have hid := h.orderly.id id hop.member
  rw [hop.here] at hid
  cases hop.move.origin he with
  | kept e₀ hs hb hcmd hst hacks =>
    rw [hb, hcmd]
    rcases hacks r hr with hr | ⟨hi, hbefore, -, hold, hc₀⟩
    · exact hcredited s e₀ hs (hst.symm.trans hc) (hb ▸ ho) r hr
    · rw [hb] at hi hbefore
      exact Or.inr ⟨e₀, hold, hc₀, rfl, rfl, Or.inr ⟨hi, hbefore⟩⟩
  | asked hc' hb hx hacks => exact Or.inl ((hacks r hr).trans hid)
  | voted hc' hi hb =>
    -- Replicas do not ask themselves.
    obtain ⟨p, hsent⟩ := hop.heard _ hi
    obtain ⟨hne, i, hd⟩ := h.orderly.broadcast_accept hsent
    have howner := h.voting.owner _ _ _ _ _ hd
    rw [ho, Option.some_inj] at howner
    exact absurd howner hne
  | reported m r' hi hr' hst hcmd hb hm hnew =>
    obtain ⟨p, hsent⟩ := hop.heard _ hi
    have hasked := h.voting.reported p id m hsent s r' hr' (hst.symm.trans hc)
    rw [← hb hc] at hasked
    exact (h.not_reported hop hasked ho (hnew hc)).elim
  | chosen e₀ hs he hx => rw [he] at hc; cases hc
  | learned b hc' hi => rw [hc] at hc'; cases hc'

end Sound

/-- Enough replicas are credited with a vote for everything that the effects announce. -/
def Announces (spec : QuorumSpec) (id : ReplicaId) (before : Replica ρ σ) (input : Input)
    (effects : List Effect) : Prop :=
  ∀ b s c, .broadcast (.commit ⟨b, s, c⟩) ∈ effects →
    ∃ voters : List ReplicaId, voters.Nodup ∧ spec.phase2 ≤ voters.length ∧
      ∀ r ∈ voters, r = id ∨ Credit before input b s c r

theorem Sound.announces_hop {spec : QuorumSpec} {v v' : View ρ σ} {id : ReplicaId} {input : Input}
    {before : Replica ρ σ} {t t' : Turn ρ σ} (h : Sound spec v)
    (hop : View.Hop v v' id input before t t') (hcredited : t.log.Credited id before input)
    (hx : Announces spec id before input t.effects) :
    Announces spec id before input t'.effects := by
  intro b s c hx'
  rcases hop.move.emits hx' trivial with hx' | hemits
  · exact hx b s c hx'
  · cases hemits with
    | choose s e ho hs hc hb hq =>
      have hid := h.orderly.id id hop.member
      have hquorums := h.orderly.quorums id hop.member
      rw [hop.here] at hid hquorums
      rw [hquorums] at hq
      exact ⟨e.acks.voters, e.acks.distinct, of_decide_eq_true hq,
        hcredited s e hs hc (by rw [hb, ho, hid])⟩

namespace Network

variable {spec : QuorumSpec} {net : Network ρ σ}

/-- In a step of a reachable network, everything counted is credited. -/
theorem Taken.credited {o : Occurrence ρ σ} (h : Taken spec net o) :
    o.after.log.Credited o.id o.before o.input ∧
      Announces spec o.id o.before o.input o.effects := by
  obtain ⟨now, t, hm, hr, he⟩ := h.moves
  rw [← hr, ← he]
  have hp := h.possible
  rw [h.before] at hm ⊢
  clear hr he
  induction hm with
  | refl =>
    refine ⟨fun s e he hc ho r hr => Or.inr ⟨e, he, hc, rfl, rfl, Or.inl hr⟩, ?_⟩
    intro b s c hx
    cases hx
  | tail hm hmove ih =>
    have hsound := h.reachable.amid (PaxosLog.sound spec) h.member hp hm
    have hop := hop_of_move h.member hp hmove
    exact ⟨hsound.credited_hop hop ih.1, hsound.announces_hop hop ih.1 ih.2⟩

omit [RandomSource ρ] [StateMachine σ] in
theorem counted_record {p r : ReplicaId} {b : Ballot} {s : Slot} {c : Command} (o : Occurrence ρ σ)
    (h : net.Counted p r b s c) : (net.record o).Counted p r b s c := by
  obtain ⟨o', ho', hid, hcounts⟩ := h
  exact ⟨o', List.mem_cons_of_mem _ ho', hid, hcounts⟩

/-- What is counted in a run was counted by a step of it. -/
structure Tallied (spec : QuorumSpec) (net : Network ρ σ) : Prop where
  entry : ∀ p ∈ net.members, ∀ s e, (net.replica p).log.get? s = some e → e.isCommitted = false →
    e.ballot.owner = some p → ∀ r ∈ e.acks.voters, r = p ∨ net.Counted p r e.ballot s e.command
  announced : ∀ o ∈ net.past, ∀ b s c, .broadcast (.commit ⟨b, s, c⟩) ∈ o.effects →
    ∃ voters : List ReplicaId, voters.Nodup ∧ spec.phase2 ≤ voters.length ∧
      ∀ r ∈ voters, r = o.id ∨ net.Counted o.id r b s c

namespace Tallied

omit [RandomSource ρ] [StateMachine σ] in
theorem fresh (h : Fresh spec net) : Tallied spec net := by
  refine ⟨fun p hp s e he hc => ?_, fun o ho => ?_⟩
  · rw [(h.isCommitted hp he).2] at hc
    cases hc
  · rw [h.past] at ho
    cases ho

/-- A credited voter was counted before, or is in this step. -/
theorem counted_of_credit (h : Tallied spec net) {o : Occurrence ρ σ} (htaken : Taken spec net o)
    {b : Ballot} (ho : b.owner = some o.id) {s : Slot} {c : Command} {r : ReplicaId}
    (hcredit : Credit o.before o.input b s c r) :
    r = o.id ∨ (net.record o).Counted o.id r b s c := by
  obtain ⟨e, he, hc, rfl, rfl, hcase⟩ := hcredit
  by_cases hr : r ∈ e.acks.voters
  · rw [htaken.before] at he
    have := h.entry o.id htaken.member s e he hc ho r hr
    exact this.imp_right (counted_record o)
  · obtain ⟨hi, hb⟩ := hcase.resolve_left hr
    by_cases hne : r = o.id
    · exact Or.inl hne
    · have hcounts := htaken.counts_iff.mpr ⟨hne, hi, hb, ho, e, he, hc, rfl, rfl, hr⟩
      exact Or.inr ⟨o, List.mem_cons_self, rfl, hcounts⟩

theorem step (h : Tallied spec net) {o : Occurrence ρ σ} (htaken : Taken spec net o) :
    Tallied spec (net.record o) := by
  obtain ⟨hcredited, hannounces⟩ := htaken.credited
  refine ⟨fun p hp s e he hc ho r hr => ?_, fun o' ho' b s c hx => ?_⟩
  · by_cases heq : p = o.id
    · subst heq
      rw [replica_record_self] at he
      rcases hcredited s e he hc ho r hr with hr | hcredit
      · exact Or.inl hr
      · exact h.counted_of_credit htaken ho hcredit
    · rw [replica_record_ne net heq] at he
      exact (h.entry p hp s e he hc ho r hr).imp_right (counted_record o)
  · rcases List.mem_cons.mp ho' with rfl | ho'
    · obtain ⟨voters, hdistinct, hq, hcredit⟩ := hannounces b s c hx
      have hview := htaken.next.view (choosing spec)
      have howner := (hview.2.announced _ _ _ _ _ ⟨o', List.mem_cons_self, rfl, rfl, hx⟩).1
      refine ⟨voters, hdistinct, hq, fun r hr => ?_⟩
      rcases hcredit r hr with hr | hcredit
      · exact Or.inl hr
      · exact h.counted_of_credit htaken howner hcredit
    · obtain ⟨voters, hdistinct, hq, hcounted⟩ := h.announced o' ho' b s c hx
      exact ⟨voters, hdistinct, hq,
        fun r hr => (hcounted r hr).imp_right (counted_record o)⟩

end Tallied

/-- **Everything that is counted was counted by a step.** -/
theorem Reachable.tallied (hr : Reachable spec net) : Tallied spec net :=
  hr.induction (fun _ => Tallied.fresh) fun _ _ htaken h => h.step htaken

/-! ## Which acknowledgements answer a vote -/

/-- An acknowledgement that does not refuse answers the vote that its ballot and slot name. -/
theorem Reachable.vote_of_sends (hr : Reachable spec net) {a : Occurrence ρ σ} (ha : a ∈ net.past)
    {p : ReplicaId} {b : Ballot} {s : Slot} {c : Command}
    (hx : a.Sends p (.accepted ⟨b, s, a.id⟩)) (hn : ¬ a.Refuses) (hasked : net.view.Asked b s c) :
    a.input = .message (.accept ⟨b, s, c⟩) ∧ a.before.ballot ≤ b := by
  have hsound := hr.view (PaxosLog.sound spec)
  obtain ⟨net₀, htaken⟩ := hr.taken ha
  obtain ⟨now, t, hm, -, he⟩ := htaken.moves
  obtain ⟨-, -, hacc⟩ := accepted_of_moves hm
  rcases hx with hx | ⟨-, hx⟩
  · obtain ⟨-, m, hi, hslot, -, hcase⟩ := hacc p _ (he ▸ hx)
    rcases hcase with ⟨hle, hb⟩ | ⟨hlt, -⟩
    · obtain ⟨ballot, slot, command⟩ := m
      simp only at hslot hb hle
      subst hslot hb
      have hvoted := hr.voted_iff.mpr ⟨a, ha, rfl, Or.inr ⟨hi, hle⟩⟩
      have hasked' := (hsound.voting.voted _ _ _ _ hvoted).2.1
      rw [hsound.voting.unique _ _ c command hasked hasked']
      exact ⟨hi, hle⟩
    · exact absurd ⟨m, Input.accept?_eq_some.mpr hi, hlt⟩ hn
  · exact (hsound.orderly.proper a.id a.input _ ⟨a, ha, rfl, rfl, hx⟩).elim

/-- A vote is acknowledged, and this does not refuse. -/
theorem Taken.sends_of_vote {a : Occurrence ρ σ} (h : Taken spec net a) {p : ReplicaId} {b : Ballot}
    {s : Slot} {c : Command} (ho : b.owner = some p) (hi : a.input = .message (.accept ⟨b, s, c⟩))
    (hle : a.before.ballot ≤ b) : a.Sends p (.accepted ⟨b, s, a.id⟩) ∧ ¬ a.Refuses := by
  obtain ⟨now, hstep⟩ := h.step
  rw [hi] at hstep
  have hx := answer_of_step ho hle hstep
  rw [h.id_eq] at hx
  refine ⟨Or.inl hx, ?_⟩
  rintro ⟨m, hm, hlt⟩
  rw [Option.mem_def, Input.accept?_eq_some, hi] at hm
  cases hm
  exact absurd (Std.lt_of_lt_of_le hlt hle) Std.lt_irrefl

/-- A counted replica voted iff it acknowledged a request that it did not refuse. -/
theorem Reachable.voted_iff_answered (hr : Reachable spec net)
    {later earlier : List (Occurrence ρ σ)} {o : Occurrence ρ σ}
    (hpast : net.past = later ++ o :: earlier) {r : ReplicaId} {b : Ballot} {s : Slot}
    {c : Command} (hcounts : o.Counts r b s c) :
    (∃ a ∈ earlier, a.id = r ∧ a.input = .message (.accept ⟨b, s, c⟩) ∧ a.before.ballot ≤ b) ↔
      ∃ a ∈ earlier, a.id = r ∧ a.Sends o.id (.accepted ⟨b, s, r⟩) ∧ ¬ a.Refuses := by
  obtain ⟨net₀, htaken, rfl, -⟩ := hr.split hpast
  obtain ⟨-, -, -, ho, e, he, hc, rfl, rfl, -⟩ := htaken.counts_iff.mp hcounts
  rw [htaken.before] at he
  have hasked := htaken.sound.voting.entry o.id htaken.member s e he hc
  constructor
  · rintro ⟨a, ha, rfl, hi, hle⟩
    obtain ⟨net₁, htaken₁⟩ := htaken.reachable.taken ha
    exact ⟨a, ha, rfl, htaken₁.sends_of_vote ho hi hle⟩
  · rintro ⟨a, ha, rfl, hsends, hn⟩
    exact ⟨a, ha, rfl, htaken.reachable.vote_of_sends ha hsends hn hasked⟩

/-- A counted replica acknowledged a request that it did not refuse, or refused an older request of
the proposer that counts it. -/
theorem Reachable.answer (hr : Reachable spec net) {later earlier : List (Occurrence ρ σ)}
    {o : Occurrence ρ σ} (hpast : net.past = later ++ o :: earlier) {r : ReplicaId} {b : Ballot}
    {s : Slot} {c : Command} (hcounts : o.Counts r b s c) :
    ∃ a ∈ earlier, a.id = r ∧ a.Sends o.id (.accepted ⟨b, s, r⟩) ∧
      (¬ a.Refuses ∨ a.RefusesOlder o.id b s) := by
  obtain ⟨net₀, htaken, rfl, -⟩ := hr.split hpast
  obtain ⟨-, hi, -⟩ := htaken.counts_iff.mp hcounts
  obtain ⟨q, hsent⟩ := htaken.heard hi
  obtain ⟨i, a, ha, rfl, -, hx⟩ := htaken.sound.orderly.send_accepted hsent
  obtain ⟨net₁, htaken₁⟩ := htaken.reachable.taken ha
  obtain ⟨now, t, hm, -, he⟩ := htaken₁.moves
  obtain ⟨-, -, hacc⟩ := accepted_of_moves hm
  obtain ⟨hsender, m, him, hslot, ho, hcase⟩ := hacc o.id _ (he ▸ hx)
  refine ⟨a, ha, (hsender.trans htaken₁.id_eq).symm, Or.inl hx, ?_⟩
  rcases hcase with ⟨hle, -⟩ | ⟨hlt, hb⟩
  · refine Or.inl fun ⟨m', hm', hlt⟩ => ?_
    rw [Option.mem_def, Input.accept?_eq_some, him] at hm'
    cases hm'
    exact absurd (Std.lt_of_lt_of_le hlt hle) Std.lt_irrefl
  · have hb : b = a.before.ballot := hb
    subst hb
    exact Or.inr ⟨m, Input.accept?_eq_some.mpr him, hslot, ho, rfl, hlt⟩

/-- Acknowledgements are earned where nobody refuses an older request of the proposer. -/
theorem Reachable.earned (hr : Reachable spec net) {p : ReplicaId} {b : Ballot} {s : Slot}
    (h : ∀ a ∈ net.past, ¬ a.RefusesOlder p b s) (c : Command) : net.Earned p b s c := by
  rintro later o earlier r hpast rfl hcounts
  obtain ⟨a, ha, hid, hsends, hn⟩ := hr.answer hpast hcounts
  exact ⟨a, ha, hid, hsends, hn.resolve_right (h a (mem_of_earlier hpast ha))⟩

/-- Where nobody refuses, all acknowledgements are earned. -/
theorem Reachable.earned_of_unrefused (hr : Reachable spec net) (h : ∀ a ∈ net.past, ¬ a.Refuses)
    (p : ReplicaId) (b : Ballot) (s : Slot) (c : Command) : net.Earned p b s c :=
  hr.earned (fun a ha hrefuses => h a ha hrefuses.refuses) c

/-- What is announced with a quorum of earned acknowledgements is chosen. -/
theorem Reachable.chosen_of_earned (hr : Reachable spec net) {o : Occurrence ρ σ}
    (ho : o ∈ net.past) {b : Ballot} {s : Slot} {c : Command}
    (hx : .broadcast (.commit ⟨b, s, c⟩) ∈ o.effects) (hearned : net.Earned o.id b s c) :
    net.Chosen spec b s c := by
  obtain ⟨hsound, hchoosing⟩ := hr.view (choosing spec)
  obtain ⟨howner, hasked⟩ := hchoosing.announced _ _ _ _ _ ⟨o, ho, rfl, rfl, hx⟩
  obtain ⟨voters, hdistinct, hq, hcounted⟩ := hr.tallied.announced o ho b s c hx
  refine ⟨voters, hdistinct, hq, fun r hmem => ?_⟩
  rcases hcounted r hmem with rfl | ⟨o', ho', hid, hcounts⟩
  · obtain ⟨p, i, hd⟩ := hasked
    have hp := hsound.voting.owner _ _ _ _ _ hd
    rw [howner, Option.some_inj] at hp
    subst hp
    obtain ⟨a, ha, haid, -, hax⟩ := hd
    exact ⟨a, ha, haid, Or.inl hax⟩
  · obtain ⟨later, earlier, hpast⟩ := List.append_of_mem ho'
    obtain ⟨a, ha, rfl, hsends, hn⟩ := hearned later o' earlier r hpast hid hcounts
    have hmem := mem_of_earlier hpast ha
    exact ⟨a, hmem, rfl, Or.inr (hr.vote_of_sends hmem hsends hn hasked)⟩

/-- **Counted replicas and voters.** A replica that a proposer counts for `c` at slot `s` under `b`
had handled the request for this vote, while it knew no higher ballot, iff one of the
acknowledgements that it had sent for `b` and `s` did not refuse a request; so it had, unless it had
refused an older request of the same proposer under `b`. What is announced where every counted
acknowledgement is earned is chosen: `phase2` replicas voted for it. -/
theorem counted_iff_accepted (hr : Reachable spec net) :
    (∀ later o earlier r b s c, net.past = later ++ o :: earlier → o.Counts r b s c →
      ((∃ a ∈ earlier, a.id = r ∧ a.input = .message (.accept ⟨b, s, c⟩) ∧ a.before.ballot ≤ b) ↔
        ∃ a ∈ earlier, a.id = r ∧ a.Sends o.id (.accepted ⟨b, s, r⟩) ∧ ¬ a.Refuses) ∧
      ((∃ a ∈ earlier, a.id = r ∧ a.input = .message (.accept ⟨b, s, c⟩) ∧ a.before.ballot ≤ b) ∨
        ∃ a ∈ earlier, a.id = r ∧ a.RefusesOlder o.id b s)) ∧
    ∀ o ∈ net.past, ∀ b s c, .broadcast (.commit ⟨b, s, c⟩) ∈ o.effects →
      net.Earned o.id b s c → net.Chosen spec b s c := by
  refine ⟨fun later o earlier r b s c hpast hcounts => ?_,
    fun o ho b s c hx hearned => hr.chosen_of_earned ho hx hearned⟩
  have hvoted := hr.voted_iff_answered hpast hcounts
  refine ⟨hvoted, ?_⟩
  obtain ⟨a, ha, hid, hsends, hn | holder⟩ := hr.answer hpast hcounts
  · exact Or.inl (hvoted.mpr ⟨a, ha, hid, hsends, hn⟩)
  · exact Or.inr ⟨a, ha, hid, holder⟩

/-- Replica 1 counts replica 2, which voted for its proposal, and announces it. -/
theorem counted_vote : ∃ net : Network Script Journal, Reachable QuorumSpec.three net ∧
    ∃ o earlier, net.past = [] ++ o :: earlier ∧ o.Counts 2 ⟨1, some 1⟩ 1 (.client [65]) ∧
      (∃ a ∈ earlier, a.id = 2 ∧ a.input = .message (.accept ⟨⟨1, some 1⟩, 1, .client [65]⟩) ∧
        a.before.ballot ≤ ⟨1, some 1⟩) ∧
      .broadcast (.commit ⟨⟨1, some 1⟩, 1, .client [65]⟩) ∈ o.effects ∧
      net.Chosen .three ⟨1, some 1⟩ 1 (.client [65]) := by
  obtain ⟨net, hs, hquiet, o, ho, hcounts, ⟨a, ha, haid, hsends, hn⟩, hx⟩ := trio.exists_of_play
    (firstElection ++
      [(2, .message (.accept ⟨⟨1, some 1⟩, 1, .client [65]⟩)),
        (1, .message (.accepted ⟨⟨1, some 1⟩, 1, 2⟩))])
    (fun net => (∀ a ∈ net.past, ¬ a.Refuses) ∧
      ∃ o ∈ net.past.head?, o.Counts 2 ⟨1, some 1⟩ 1 (.client [65]) ∧
        (∃ a ∈ net.past.tail, a.id = 2 ∧ a.Sends o.id (.accepted ⟨⟨1, some 1⟩, 1, 2⟩) ∧
          ¬ a.Refuses) ∧
        .broadcast (.commit ⟨⟨1, some 1⟩, 1, .client [65]⟩) ∈ o.effects)
    (by decide +kernel)
  have hr : Reachable .three net := ⟨trio, fresh_trio, hs⟩
  obtain ⟨earlier, hpast⟩ := List.head?_eq_some_iff.mp ho
  have hmem : o ∈ net.past := List.mem_of_mem_head? ho
  rw [hpast, List.tail_cons] at ha
  obtain ⟨hvotes, hchosen⟩ := counted_iff_accepted hr
  exact ⟨net, hr, o, earlier, hpast, hcounts,
    (hvotes [] o earlier _ _ _ _ hpast hcounts).1.mpr ⟨a, ha, haid, hsends, hn⟩, hx,
    hchosen o hmem _ _ _ hx (hr.earned_of_unrefused hquiet _ _ _ _)⟩

/-- Replica 1 proposes under its first ballot, is preempted by replica 2, and opens another ballot.
Replica 3 follows that one before the first proposal arrives, so it refuses; it promises, which
makes replica 1 propose again, and replica 1 counts the refusal. -/
def refusedRun : List (ReplicaId × Input) :=
  firstElection ++
    [(2, .elect), (1, .message (.prepare ⟨⟨2, some 2⟩, 1⟩)), (1, .elect),
      (3, .message (.prepare ⟨⟨3, some 1⟩, 1⟩)),
      (3, .message (.accept ⟨⟨1, some 1⟩, 1, .client [65]⟩)),
      (1, .message (.promise ⟨⟨3, some 1⟩, 3, ∅⟩)),
      (1, .message (.accepted ⟨⟨3, some 1⟩, 1, 3⟩))]

/-- Not every counted replica voted: in `refusedRun`, replica 3 did not. -/
theorem counted_refusal :
    ¬ ∀ net : Network Script Journal, Reachable .three net → ∀ later o earlier r b s c,
      net.past = later ++ o :: earlier → o.Counts r b s c →
      ∃ a ∈ earlier, a.id = r ∧ a.input = .message (.accept ⟨b, s, c⟩) ∧ a.before.ballot ≤ b := by
  obtain ⟨net, hs, o, ho, hcounts, hnone⟩ := trio.exists_of_play refusedRun
    (fun net => ∃ o ∈ net.past.head?, o.Counts 3 ⟨3, some 1⟩ 1 (.client [65]) ∧
      ∀ a ∈ net.past, a.input ≠ .message (.accept ⟨⟨3, some 1⟩, 1, .client [65]⟩))
    (by decide +kernel)
  intro hclaim
  obtain ⟨earlier, hpast⟩ := List.head?_eq_some_iff.mp ho
  obtain ⟨a, ha, -, hi, -⟩ :=
    hclaim net ⟨trio, fresh_trio, hs⟩ [] o earlier _ _ _ _ hpast hcounts
  refine hnone a ?_ hi
  rw [hpast]
  exact List.mem_cons_of_mem _ ha

end Network

end PaxosLog
