import PaxosLog.Proofs.Network.Past

/-!
# What leadership rests on

A replica that leads under a ballot was elected for exactly that ballot. `Network.Mandate` says what
this means: the ballot was opened once, by the leader, and every promise that counts is one for this
ballot, handled in this election, which reports all that its sender held, from a slot on that the
candidate had not executed when it opened the ballot.

* `Candidacy`: what a step does to the election of the replica that takes it.
* `Starts`: a replica opens higher ballots at cursors that are not lower, so that a promise which
  answers an older request reports enough.

**`Network.mandate_of_active`**: every leader of every run has a mandate, and no other replica ever
leads under its ballot.
-/

namespace PaxosLog

open Relation (ReflTransGen)

variable {ρ σ : Type}

/-- The ballots that a step opens. -/
def Occurrence.opened (o : Occurrence ρ σ) : List Ballot := o.effects.filterMap Effect.opened?

namespace Network

/-- The ballots that were opened in a run. -/
def opened (net : Network ρ σ) : List Ballot := net.past.flatMap Occurrence.opened

/-- In the election that `opening` began, `r` promised `b`: it sent a promise that carries `b` while
it held `b` itself, with all entries from a slot on that is not above the candidate's cursor at the
beginning; and the candidate handled it while `b` was its ballot and it did not lead yet. -/
def Promised (net : Network ρ σ) (opening : Occurrence ρ σ) (b : Ballot) (r : ReplicaId) : Prop :=
  ∃ m : Promise, m.sender = r ∧ m.ballot = b ∧
    (∃ a ∈ net.past, a.id = r ∧ a.Sends opening.id (.promise m) ∧ a.after.ballot = b ∧
      ∃ start, start ≤ opening.before.log.executeCursor ∧ ∀ s e, start ≤ s →
        a.after.log.get? s = some e → m.log[s]? = some e.promised) ∧
    ∃ h ∈ net.past, h.id = opening.id ∧ h.input = .message (.promise m) ∧ h.before.ballot = b ∧
      h.before.active = false

/-- What the leadership of `p` under `b` rests on. -/
structure Mandate (spec : QuorumSpec) (net : Network ρ σ) (p : ReplicaId) (b : Ballot) : Prop where
  owner : b.owner = some p
  /-- `b` was opened once. -/
  once : net.opened.count b = 1
  /-- A quorum for phase 1 counts, `p` among it. -/
  quorum : spec.phase1 ≤ (net.replica p).promises.voters.length
  distinct : (net.replica p).promises.voters.Nodup
  self : p ∈ (net.replica p).promises.voters
  members : ∀ r ∈ (net.replica p).promises.voters, r ∈ net.members
  /-- Whoever counts promised `b` in the election that `p` began when it opened `b`. -/
  promised : ∃ o ∈ net.past, o.id = p ∧ b ∈ o.opened ∧
    ∀ r ∈ (net.replica p).promises.voters, r ≠ p → net.Promised o b r
  /-- Nobody else ever led under `b`. -/
  alone : ∀ o ∈ net.past, o.after.active = true → o.after.ballot = b → o.id = p

end Network

/-! ## Elections in a step -/

/-- Effects that open nothing do not count. -/
theorem filterMap_opened?_append {xs ys : List Effect} (h : ∀ y ∈ ys, y.opened? = none) :
    (xs ++ ys).filterMap Effect.opened? = xs.filterMap Effect.opened? := by
  rw [List.filterMap_append, List.filterMap_eq_nil_iff.mpr h, List.append_nil]

variable [RandomSource ρ] [StateMachine σ] {before : Replica ρ σ} {input : Input} {t t' : Turn ρ σ}

/-- A move opens at most one ballot, above the one before it. -/
theorem Move.opened (h : Move before input t t') :
    t'.effects.filterMap Effect.opened? = t.effects.filterMap Effect.opened? ∨
      t'.effects.filterMap Effect.opened? = t.effects.filterMap Effect.opened? ++ [t'.ballot] ∧
        t.ballot < t'.ballot ∧ t'.ballot.owner = some t.id := by
  have hretry : ∀ l : List ClientRequest, ∀ y ∈ l.map Effect.retry, y.opened? = none := by
    intro l y hy
    obtain ⟨r, -, rfl⟩ := List.mem_map.mp hy
    rfl
  cases h with
  | elect ballot hlog ha hn =>
    refine Or.inr ⟨?_, Ballot.lt_of_next hn, Ballot.owner_of_next hn⟩
    rw [Turn.emit_effects, List.filterMap_append]
    rfl
  | execute t' e hs hc h =>
    obtain ⟨_, _, _, -, rfl, hquiet⟩ := Turn.executeEntry_eq_ok h
    exact Or.inl (filterMap_opened?_append fun y hy =>
      Effect.opened?_of_not_isMessage (Effect.not_isMessage (hquiet y hy)))
  | backOff t' h =>
    obtain ⟨_, _, _, rfl, hquiet⟩ := Turn.scheduleBackoff_eq_ok h
    exact Or.inl (filterMap_opened?_append fun y hy =>
      Effect.opened?_of_not_isMessage (Effect.not_isMessage (hquiet y hy)))
  | vote m proposer log displaced hi ho hb h =>
    rw [Turn.emit_effects, Turn.withLog_effects, List.append_assoc]
    refine Or.inl (filterMap_opened?_append fun y hy => ?_)
    rcases List.mem_append.mp hy with hy | hy
    · exact hretry _ y hy
    · rw [List.mem_singleton.mp hy]
      rfl
  | report m log displaced hi ha hle ho h =>
    exact Or.inl (filterMap_opened?_append (hretry displaced))
  | countPromise m log displaced hi hstart ha hm ho h =>
    exact Or.inl (filterMap_opened?_append (hretry displaced))
  | learn m log displaced hi h0 h =>
    exact Or.inl (filterMap_opened?_append (hretry displaced.toList))
  | _ =>
    first
      | exact Or.inl rfl
      | exact Or.inl (filterMap_opened?_append fun y hy => by rw [List.mem_singleton.mp hy]; rfl)

/-- What a step does, up to `t`, to the election of the replica that takes it. -/
structure Candidacy (before : Replica ρ σ) (input : Input) (t : Turn ρ σ) : Prop where
  id : t.id = before.id
  ballot : before.ballot ≤ t.ballot
  distinct : (t.effects.filterMap Effect.opened?).Nodup
  opened : ∀ b ∈ t.effects.filterMap Effect.opened?,
    before.ballot < b ∧ b ≤ t.ballot ∧ b.owner = some before.id
  /-- The election goes on, with the promise that was handled, or a new one begins. -/
  election : t.ballot.owner = some before.id →
    t.ballot = before.ballot ∧ (∀ r ∈ before.promises.voters, r ∈ t.promises.voters) ∧
        (∀ r ∈ t.promises.voters, r ∈ before.promises.voters ∨
          ∃ m, input = .message (.promise m) ∧ m.sender = r ∧ m.ballot = before.ballot ∧
            before.active = false) ∨
      before.ballot < t.ballot ∧ t.promises = Quorum.empty.ack before.id ∧
        .broadcast (.prepare ⟨t.ballot, before.log.executeCursor⟩) ∈ t.effects

omit [RandomSource ρ] [StateMachine σ] in
theorem Candidacy.begin (before : Replica ρ σ) (input : Input) (now : Duration) :
    Candidacy before input { before with now, effects := [] } where
  id := rfl
  ballot := Std.le_refl _
  distinct := .nil
  opened b hb := by cases hb
  election _ := Or.inl ⟨rfl, fun _ hr => hr, fun _ hr => Or.inl hr⟩

/-- Every move keeps account of the election, if messages carry no own ballots from the future. -/
theorem Candidacy.move (hknown : ∀ m, input = .message m → (∀ c, m ≠ .commit c) →
      m.ballot.owner = some before.id → m.ballot ≤ before.ballot)
    (h : Candidacy before input t) (hmove : Move before input t t') :
    Candidacy before input t' := by
  have hle := Std.le_trans h.ballot hmove.ballot_le
  refine ⟨hmove.id_eq.trans h.id, hle, ?_, ?_, fun howner => ?_⟩
  · rcases hmove.opened with heq | ⟨heq, hlt, -⟩
    · rw [heq]
      exact h.distinct
    · rw [heq, List.nodup_append]
      refine ⟨h.distinct, List.pairwise_singleton _ _, ?_⟩
      rintro b hb _ hb' rfl
      rw [List.mem_singleton.mp hb'] at hb
      exact absurd (Std.lt_of_lt_of_le hlt (h.opened _ hb).2.1) Std.lt_irrefl
  · intro b hb
    have hold : b ∈ t.effects.filterMap Effect.opened? →
        before.ballot < b ∧ b ≤ t'.ballot ∧ b.owner = some before.id := by
      intro hb
      obtain ⟨hlt, hle', howner⟩ := h.opened b hb
      exact ⟨hlt, Std.le_trans hle' hmove.ballot_le, howner⟩
    rcases hmove.opened with heq | ⟨heq, hlt, howner⟩
    · rw [heq] at hb
      exact hold hb
    · rw [heq, List.mem_append, List.mem_singleton] at hb
      rcases hb with hb | rfl
      · exact hold hb
      · exact ⟨Std.lt_of_le_of_lt h.ballot hlt, Std.le_refl _, h.id ▸ howner⟩
  · rcases hmove.promises_cases with ⟨hp, hb | ⟨m, hi, hm, hb, hother⟩⟩ |
      ⟨hp, -, hlog, hlt, -, hx⟩ | ⟨m, hi, hp, hstart, hb, hm, -, ha, -⟩
    · rw [hp, hb]
      exact (h.election (hb ▸ howner)).imp_right
        fun ⟨hlt, hq, hx⟩ => ⟨hlt, hq, hmove.effects_sub hx⟩
    · exfalso
      rw [hb] at howner
      have hmle := hknown m hi hm howner
      rcases hother with hlt | hne
      · exact absurd (Std.lt_of_lt_of_le hlt (Std.le_trans hmle h.ballot)) Std.lt_irrefl
      · exact hne (h.id ▸ howner)
    · rw [hp, h.id]
      exact Or.inr ⟨Std.lt_of_le_of_lt h.ballot hlt, rfl, hlog ▸ hx⟩
    · subst hstart
      rw [hp, hb]
      refine Or.inl ⟨rfl, fun r hr => Quorum.mem_ack.mpr (Or.inl hr), fun r hr => ?_⟩
      rcases Quorum.mem_ack.mp hr with hr | rfl
      · exact Or.inl hr
      · exact Or.inr ⟨m, hi, rfl, hm, ha⟩

namespace Network

variable {spec : QuorumSpec} {net : Network ρ σ}

/-- The election in a step of a run. -/
theorem Taken.candidacy {o : Occurrence ρ σ} (h : Taken spec net o) :
    ∃ t, Candidacy o.before o.input t ∧ t.toReplica = o.after ∧ t.effects = o.effects := by
  obtain ⟨now, t, hm, hr, he⟩ := h.moves
  refine ⟨t, ?_, hr, he⟩
  have hknown : ∀ m, o.input = .message m → (∀ c, m ≠ .commit c) →
      m.ballot.owner = some o.before.id → m.ballot ≤ o.before.ballot := by
    intro m hi hc howner
    obtain ⟨p, hs⟩ := h.heard hi
    rw [h.id_eq] at howner
    have hle := (h.sound.orderly.carried p o.id m hs hc o.id howner).2
    rw [h.before]
    exact hle
  clear hr he
  induction hm with
  | refl => exact Candidacy.begin o.before o.input now
  | tail _ hmove ih => exact ih.move hknown hmove

/-! ## Elections in a run -/

omit [RandomSource ρ] [StateMachine σ] in
/-- What is opened in a run, as the view has it. -/
theorem mem_opened {b : Ballot} :
    b ∈ net.opened ↔ ∃ p i k, net.view.did p i (.broadcast (.prepare ⟨b, k⟩)) := by
  constructor
  · intro hb
    obtain ⟨o, ho, hb⟩ := List.mem_flatMap.mp hb
    obtain ⟨x, hx, hopen⟩ := List.mem_filterMap.mp hb
    unfold Effect.opened? at hopen
    split at hopen
    · rename_i m
      cases hopen
      exact ⟨o.id, o.input, m.start, o, ho, rfl, rfl, hx⟩
    · cases hopen
  · rintro ⟨p, i, k, o, ho, -, -, hx⟩
    exact List.mem_flatMap.mpr ⟨o, ho, List.mem_filterMap.mpr ⟨_, hx, rfl⟩⟩

/-- **No ballot is opened twice.** -/
theorem Reachable.opened_nodup (hr : Reachable spec net) : net.opened.Nodup := by
  refine Reachable.induction (P := fun net => net.opened.Nodup) ?_ ?_ hr
  · intro net hf
    rw [opened, hf.past]
    exact .nil
  · intro net o htaken hnodup
    obtain ⟨t, hc, -, he⟩ := htaken.candidacy
    show (o.opened ++ net.opened).Nodup
    rw [List.nodup_append]
    refine ⟨?_, hnodup, ?_⟩
    · rw [Occurrence.opened, ← he]
      exact hc.distinct
    · -- Ballots of other replicas differ by their owner, earlier ones of this replica are lower.
      rintro b hb _ hb' rfl
      rw [Occurrence.opened, ← he] at hb
      obtain ⟨hlt, -, howner⟩ := hc.opened b hb
      obtain ⟨p, i, k, hd⟩ := mem_opened.mp hb'
      obtain ⟨howner', hle, -⟩ := htaken.sound.backing.opened p i b k hd
      rw [howner, htaken.id_eq, Option.some_inj] at howner'
      subst howner'
      change b ≤ (net.replica o.id).ballot at hle
      rw [htaken.before] at hlt
      exact absurd (Std.lt_of_lt_of_le hlt hle) Std.lt_irrefl

/-- `p` handled a promise of `r` for `b` while `b` was its ballot and it did not lead yet. -/
def Heard (net : Network ρ σ) (p : ReplicaId) (b : Ballot) (r : ReplicaId) : Prop :=
  ∃ h ∈ net.past, h.id = p ∧ h.before.ballot = b ∧ h.before.active = false ∧
    ∃ m, h.input = .message (.promise m) ∧ m.sender = r ∧ m.ballot = b

/-- The election that `p` holds, or held, for its ballot: it was opened, `p` counts itself, and it
heard whoever else counts. -/
structure Election (net : Network ρ σ) (p : ReplicaId) : Prop where
  self : p ∈ (net.replica p).promises.voters
  heard : ∀ r ∈ (net.replica p).promises.voters, r ≠ p →
    net.Heard p (net.replica p).ballot r
  opening : ∃ o ∈ net.past, o.id = p ∧
    .broadcast (.prepare ⟨(net.replica p).ballot, o.before.log.executeCursor⟩) ∈ o.effects

omit [RandomSource ρ] [StateMachine σ] in
/-- A step of another replica leaves an election alone. -/
theorem Election.other {p : ReplicaId} (h : net.Election p) {o : Occurrence ρ σ} (hp : p ≠ o.id) :
    (net.record o).Election p := by
  have hsame := net.replica_record_ne hp
  refine ⟨?_, fun r hr hne => ?_, ?_⟩
  · rw [hsame]
    exact h.self
  · rw [hsame] at hr ⊢
    obtain ⟨o', ho', hrest⟩ := h.heard r hr hne
    exact ⟨o', List.mem_cons_of_mem _ ho', hrest⟩
  · rw [hsame]
    obtain ⟨o', ho', hrest⟩ := h.opening
    exact ⟨o', List.mem_cons_of_mem _ ho', hrest⟩

/-- A step of the candidate carries the election on or begins a new one. -/
theorem Election.own {o : Occurrence ρ σ} (htaken : Taken spec net o)
    (h : (net.replica o.id).ballot.owner = some o.id → net.Election o.id)
    (howner : o.after.ballot.owner = some o.id) : (net.record o).Election o.id := by
  have hid := htaken.id_eq
  have hbefore := htaken.before
  obtain ⟨t, hc, hr, he⟩ := htaken.candidacy
  obtain ⟨id, input, before, after, effects⟩ := o
  simp only at hid hbefore hc hr he h howner
  subst hr he hbefore
  have hsame := net.replica_record_self ⟨id, input, net.replica id, t.toReplica, t.effects⟩
  rcases hc.election (by rw [hid]; exact howner) with ⟨hb, hkept, hnew⟩ | ⟨hlt, hp, hx⟩
  · have hold := h (by rw [← hb]; exact howner)
    refine ⟨?_, fun r hr hne => ?_, ?_⟩
    · rw [hsame]
      exact hkept id hold.self
    · rw [hsame] at hr ⊢
      rcases hnew r hr with hr | ⟨m, hi, hsender, hm, ha⟩
      · obtain ⟨o', ho', hrest⟩ := hold.heard r hr hne
        exact ⟨o', List.mem_cons_of_mem _ ho', hb ▸ hrest⟩
      · exact ⟨_, List.mem_cons_self, rfl, hb.symm, ha, m, hi, hsender, hm.trans hb.symm⟩
    · rw [hsame]
      obtain ⟨o', ho', hrest⟩ := hold.opening
      exact ⟨o', List.mem_cons_of_mem _ ho', hb ▸ hrest⟩
  · refine ⟨?_, fun r hr hne => ?_, ?_⟩
    · rw [hsame, hp, Quorum.mem_ack]
      exact Or.inr hid.symm
    · rw [hsame, hp, Quorum.mem_ack] at hr
      rcases hr with hr | rfl
      · cases hr
      · exact absurd hid hne
    · rw [hsame]
      exact ⟨_, List.mem_cons_self, rfl, hx⟩

/-- **Whoever owns its ballot was elected, or is being elected, for it.** -/
theorem Reachable.election (hr : Reachable spec net) : ∀ p ∈ net.members,
    (net.replica p).ballot.owner = some p → net.Election p := by
  refine Reachable.induction (P := fun net => ∀ p ∈ net.members,
    (net.replica p).ballot.owner = some p → net.Election p) ?_ ?_ hr
  · intro net hf p hp howner
    rw [(hf.replica hp).2.2.2.1] at howner
    cases howner
  · intro net o htaken ih p hp howner
    by_cases heq : p = o.id
    · subst heq
      rw [replica_record_self] at howner
      exact Election.own htaken (ih o.id hp) howner
    · rw [replica_record_ne net heq] at howner
      exact (ih p hp howner).other heq

end Network

/-! ## Where reports start -/

/-- A replica asks for promises from slots that rise with its ballots. -/
def Starts (v : View ρ σ) : Prop :=
  ∀ p i j b k b' k', v.did p i (.broadcast (.prepare ⟨b, k⟩)) →
    v.did p j (.broadcast (.prepare ⟨b', k'⟩)) → b' ≤ b → k' ≤ k

theorem Starts.hop {spec : QuorumSpec} {v v' : View ρ σ} {id : ReplicaId} (h : Starts v)
    (hs : Sound spec v) (hop : View.Hop v v' id input before t t') : Starts v' := by
  -- A new request starts at the cursor, which earlier ones are not above.
  have hearlier : ∀ i b k, v.did id i (.broadcast (.prepare ⟨b, k⟩)) →
      b ≤ t.ballot ∧ k ≤ t.log.executeCursor := by
    intro i b k hd
    obtain ⟨-, hle, hk⟩ := hs.backing.opened id i b k hd
    rw [hop.here] at hle hk
    exact ⟨hle, hk⟩
  intro p i j b k b' k' hd hd' hle
  rcases hop.emits hd trivial with hold | ⟨rfl, -, hemits⟩
  · rcases hop.emits hd' trivial with hold' | ⟨rfl, -, hemits'⟩
    · exact h p i j b k b' k' hold hold' hle
    · cases hemits' with
      | prepare hlog hsame hlt howner =>
        have := (hearlier i b k hold).1
        exact absurd (Std.lt_of_lt_of_le hlt (Std.le_trans hle this)) Std.lt_irrefl
  · cases hemits with
    | prepare hlog hsame hlt howner =>
      rcases hop.emits hd' trivial with hold' | ⟨-, -, hemits'⟩
      · exact (hearlier j b' k' hold').2
      · cases hemits' with
        | prepare hlog' hsame' hlt' howner' => exact Std.le_refl _

theorem starts (spec : QuorumSpec) :
    Network.Invariant (ρ := ρ) (σ := σ) spec fun v => Sound spec v ∧ Starts v where
  fresh net hf := ⟨(sound spec).fresh net hf, fun _ _ _ _ _ _ _ hd => (hf.idle hd).elim⟩
  lead v h := (sound spec).lead v h.1
  hop _ _ _ _ _ _ _ h hop := ⟨(sound spec).hop _ _ _ _ _ _ _ h.1 hop, h.2.hop h.1 hop⟩

namespace Network

variable {spec : QuorumSpec} {net : Network ρ σ}

/-- What a promise says, when it is sent: it carries the ballot of its sender and reports all
entries from the slot of a request of the receiver that was not for a higher ballot. -/
theorem Taken.promise {a : Occurrence ρ σ} (h : Taken spec net a) {q : ReplicaId} {m : Promise}
    (hx : .send q (.promise m) ∈ a.effects) :
    m.sender = a.id ∧ a.after.ballot = m.ballot ∧ ∃ i b start,
      net.view.did q i (.broadcast (.prepare ⟨b, start⟩)) ∧ b ≤ m.ballot ∧
      ∀ s e, max start Slot.first ≤ s → a.after.log.get? s = some e →
        m.log[s]? = some e.promised := by
  obtain ⟨now, t, hmoves, -, he⟩ := h.moves
  obtain ⟨m₀, hi⟩ := prepare_of_moves hmoves (he ▸ hx)
  obtain ⟨now', hstep⟩ := h.step
  rw [hi] at hstep
  obtain ⟨howner, hle, rfl⟩ := promise_of_step hstep hx
  obtain ⟨hid, htidy⟩ := h.after_orderly
  obtain ⟨p, hs⟩ := h.heard hi
  obtain ⟨i, hd⟩ := h.sound.orderly.broadcast_prepare hs
  have hp : p = q := by
    have := (h.sound.backing.opened p i _ _ hd).1
    rw [howner, Option.some_inj] at this
    exact this.symm
  subst hp
  refine ⟨hid, rfl, i, m₀.ballot, m₀.start, hd, hle, fun s e hs he => ?_⟩
  rw [Log.getElem?_promised, if_pos ⟨hs, htidy.bounded s e he⟩, he]
  rfl

/-- A promise that was handled was sent before. -/
theorem Reachable.sent_promise (hr : Reachable spec net) {h : Occurrence ρ σ} (hh : h ∈ net.past)
    {m : Promise} (hi : h.input = .message (.promise m)) :
    ∃ a ∈ net.past, .send h.id (.promise m) ∈ a.effects := by
  obtain ⟨later, earlier, hpast⟩ := List.append_of_mem hh
  obtain ⟨net₀, htaken, hpast₀, -⟩ := hr.split hpast
  have hsent := htaken.possible
  rw [hi] at hsent
  obtain ⟨a, ha, hsends⟩ := hsent
  refine ⟨a, ?_, ?_⟩
  · exact mem_of_earlier hpast (hpast₀ ▸ ha)
  · rcases hsends with hx | ⟨-, hx⟩
    · exact hx
    · exact (htaken.sound.orderly.proper _ _ _ ⟨a, ha, rfl, rfl, hx⟩).elim

/-- Who was heard for a ballot has promised it. The promise may answer an older request, which
started at a lower slot. -/
theorem Reachable.promised (hr : Reachable spec net) {p r : ReplicaId} {b : Ballot}
    (hheard : net.Heard p b r) {o : Occurrence ρ σ} (ho : o ∈ net.past) (hop : o.id = p)
    (hx : .broadcast (.prepare ⟨b, o.before.log.executeCursor⟩) ∈ o.effects) :
    net.Promised o b r := by
  obtain ⟨h, hh, hid, hbal, hactive, m, hi, hsender, hm⟩ := hheard
  obtain ⟨a, ha, hax⟩ := hr.sent_promise hh hi
  obtain ⟨later, earlier, hpast⟩ := List.append_of_mem ha
  obtain ⟨net₀, htaken, hpast₀, -⟩ := hr.split hpast
  obtain ⟨hasender, hab, i, b₀, start, ⟨o', ho', hrest⟩, hle, hreport⟩ := htaken.promise hax
  have hd : net.view.did p i (.broadcast (.prepare ⟨b₀, start⟩)) := by
    exact ⟨o', mem_of_earlier hpast (hpast₀ ▸ ho'), hid ▸ hrest⟩
  have hstart : start ≤ o.before.log.executeCursor :=
    (hr.view (starts spec)).2 p o.input i b _ b₀ start ⟨o, ho, hop, rfl, hx⟩ hd (hm ▸ hle)
  have hfirst : Slot.first ≤ o.before.log.executeCursor := by
    obtain ⟨net₁, htaken₁⟩ := hr.taken ho
    rw [htaken₁.before]
    exact (htaken₁.sound.orderly.tidy o.id htaken₁.member).first_le
  refine ⟨m, hsender, hm, ⟨a, ha, hasender.symm.trans hsender, Or.inl ?_, hab.trans hm, _,
    Log.max_first_le hstart hfirst, hreport⟩, h, hh, hid.trans hop.symm, hi, hbal, hactive⟩
  rw [hop, ← hid]
  exact hax

/-- **Leadership rests on a quorum of promises for exactly its ballot**, in every run: the ballot
belongs to the leader, which opened it once, and everyone who counts promised it in this election
with all that it held from a slot on which the candidate had not executed; and nobody else ever
leads under it. -/
theorem mandate_of_active (hr : Reachable spec net) {p : ReplicaId} (hp : p ∈ net.members)
    (ha : (net.replica p).active = true) : Mandate spec net p (net.replica p).ballot := by
  have hsound := hr.view (sound spec)
  obtain ⟨howner, hq⟩ := (hsound.orderly.tidy p hp).lead ha
  have hid := hsound.orderly.id p hp
  have hquorums := hsound.orderly.quorums p hp
  change (net.replica p).id = p at hid
  change (net.replica p).quorums = spec at hquorums
  change (net.replica p).ballot.owner = some (net.replica p).id at howner
  rw [hid] at howner
  have helection := hr.election p hp howner
  obtain ⟨o, ho, hop, hx⟩ := helection.opening
  have hopened : (net.replica p).ballot ∈ o.opened := List.mem_filterMap.mpr ⟨_, hx, rfl⟩
  have hmem : (net.replica p).ballot ∈ net.opened := List.mem_flatMap.mpr ⟨o, ho, hopened⟩
  refine ⟨howner, ?_, ?_, (net.replica p).promises.distinct, helection.self, ?_,
    ⟨o, ho, hop, hopened, fun r hr' hne => hr.promised (helection.heard r hr' hne) ho hop hx⟩, ?_⟩
  · rw [hr.opened_nodup.count, if_pos hmem]
  · change (net.replica p).quorums.phase1Reached (net.replica p).promises = true at hq
    rw [hquorums] at hq
    exact of_decide_eq_true hq
  · intro r hr'
    exact (hsound.backing.backed p hp howner r hr').1
  · intro o' ho' hactive hballot
    obtain ⟨net₀, htaken⟩ := hr.taken ho'
    obtain ⟨hid', htidy⟩ := htaken.after_orderly
    have howner' := (htidy.lead hactive).1
    rw [hballot, howner, hid', Option.some_inj] at howner'
    exact howner'.symm

/-- After `firstElection` replica 1 leads, with a mandate. -/
theorem mandate_of_elected : ∃ net : Network Script Journal, Reachable .three net ∧
    1 ∈ net.members ∧ (net.replica 1).active = true ∧
    Mandate .three net 1 (net.replica 1).ballot := by
  obtain ⟨net, hs, hmem, hactive⟩ := trio.exists_of_play firstElection
    (fun net => 1 ∈ net.members ∧ (net.replica 1).active = true) (by decide +kernel)
  have hr : Reachable .three net := ⟨trio, fresh_trio, hs⟩
  exact ⟨net, hr, hmem, hactive, mandate_of_active hr hmem hactive⟩

end Network

end PaxosLog
