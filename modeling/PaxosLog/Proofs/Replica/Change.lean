import PaxosLog.Proofs.Log.Requests
import PaxosLog.Proofs.Replica.Move

/-!
# What a move changes

`Move` says what a replica can do; the lemmas here say the same of one part of the replica at a
time, which is the form in which invariants use it.

* `Move.ballot_le`, `Move.ballot_cases`: the ballot only rises, to one of its own or to one that a
  message carried.
* `Move.promises_cases`: promises are counted for the current ballot, and start over with it.
* `Move.emitted`, `Move.emits`: effects are added at the end; a new message, and the state of the
  replica that goes with it (`Emits`).
* `Move.origin`: where an entry of the log comes from (`Origin`).
* `Move.growth`, `Move.grows`: entries grow, unless a new leader proposes a vote again that was cast
  under a ballot above its own.
* `Move.chosen_kept`, `Move.cursor_cases`: a chosen entry stays, up to its request, and the cursor
  moves on by one slot at a time.
* `Move.highestSlot_le`: no slot that exists is forgotten.
* `Move.owns`: an entry that owns a request holds its command.
-/

namespace PaxosLog

/-- The effect sends something. -/
def Effect.IsMessage : Effect → Prop
  | .broadcast _ => True
  | .send _ _ => True
  | _ => False

theorem Effect.not_isMessage {x : Effect} (h : ∀ m, x ≠ .broadcast m ∧ ∀ q, x ≠ .send q m) :
    ¬ x.IsMessage := by
  cases x with
  | broadcast m => exact absurd rfl (h m).1
  | send q m => exact absurd rfl ((h m).2 q)
  | _ => exact id

/-- The ballot that an effect opens. -/
def Effect.opened? : Effect → Option Ballot
  | .broadcast (.prepare m) => some m.ballot
  | _ => none

theorem Effect.opened?_of_not_isMessage {x : Effect} (h : ¬ x.IsMessage) : x.opened? = none := by
  cases x with
  | broadcast m => exact absurd trivial h
  | send q m => rfl
  | _ => rfl

variable {ρ σ : Type}

namespace Turn

@[simp] theorem emit_toReplica (t : Turn ρ σ) (x : Effect) : (t.emit x).toReplica = t.toReplica :=
  rfl

@[simp] theorem emit_effects (t : Turn ρ σ) (x : Effect) :
    (t.emit x).effects = t.effects ++ [x] := rfl

@[simp] theorem withLog_toReplica (t : Turn ρ σ) (log : Log) (d : List ClientRequest) :
    (t.withLog log d).toReplica = { t.toReplica with log } := rfl

@[simp] theorem withLog_effects (t : Turn ρ σ) (log : Log) (d : List ClientRequest) :
    (t.withLog log d).effects = t.effects ++ d.map .retry := rfl

end Turn

/-- A new message `x` of a move from `t` to `t'`, with the circumstances in which it is sent. -/
inductive Emits (before : Replica ρ σ) (input : Input) (t t' : Turn ρ σ) : Effect → Prop
  /-- A ballot is opened. -/
  | prepare (hlog : t.log = before.log) (hsame : t'.log = t.log) (hlt : t.ballot < t'.ballot)
      (ho : t'.ballot.owner = some t.id) :
      Emits before input t t' (.broadcast (.prepare ⟨t'.ballot, t.log.executeCursor⟩))
  /-- Votes are asked for. -/
  | ask (s : Slot) (e : LogEntry) (ha : t.active = true) (hb : t'.ballot = t.ballot)
      (hs : ∀ e₀, t.log.get? s = some e₀ → e₀.isCommitted = false ∧ e.command = e₀.command)
      (hs' : t'.log.get? s = some e) (hc : e.isCommitted = false) (heb : e.ballot = t'.ballot)
      (hnew : t.log.get? s = none →
        e.command = (e.request.map fun r => Command.client r.command).getD .noop) :
      Emits before input t t' (.broadcast (.accept ⟨t'.ballot, s, e.command⟩))
  /-- A choice is announced. -/
  | choose (s : Slot) (e : LogEntry) (ho : t.ballot.owner = some t.id)
      (hs : t.log.get? s = some e) (hc : e.isCommitted = false) (hb : e.ballot = t.ballot)
      (hq : t.quorums.phase2Reached e.acks = true) :
      Emits before input t t' (.broadcast (.commit ⟨e.ballot, s, e.command⟩))
  /-- A candidate is answered. -/
  | answer (m : Prepare) (candidate : ReplicaId) (hi : input = .message (.prepare m))
      (ho : m.ballot.owner = some candidate) (hle : m.ballot ≤ t.ballot)
      (hsame : t'.toReplica = t.toReplica) :
      Emits before input t t' (.send candidate (.promise ⟨t.ballot, t.id, t.log.promised m.start⟩))
  /-- A vote is cast. -/
  | vote (m : Accept) (proposer : ReplicaId) (hi : input = .message (.accept m))
      (ho : m.ballot.owner = some proposer) (hb : t.ballot = m.ballot) (hb' : t'.ballot = m.ballot)
      (hj : Log.Joined t.log t'.log m.slot ⟨m.command, m.ballot, false⟩) :
      Emits before input t t' (.send proposer (.accepted ⟨m.ballot, m.slot, t.id⟩))
  /-- A vote is refused. -/
  | refuse (m : Accept) (proposer : ReplicaId) (hi : input = .message (.accept m))
      (ho : m.ballot.owner = some proposer) (hbefore : t.ballot = before.ballot)
      (hlt : m.ballot < t.ballot) (hsame : t'.toReplica = t.toReplica) :
      Emits before input t t' (.send proposer (.accepted ⟨t.ballot, m.slot, t.id⟩))

/-- Where the entry `e` at slot `s` of the log comes from after a move from `t` to `t'`. -/
inductive Origin (before : Replica ρ σ) (input : Input) (t t' : Turn ρ σ) (s : Slot)
    (e : LogEntry) : Prop
  /-- It was there, up to its request and the votes counted. -/
  | kept (e₀ : LogEntry) (hs : t.log.get? s = some e₀) (hb : e.ballot = e₀.ballot)
      (hc : e.command = e₀.command) (hst : e.isCommitted = e₀.isCommitted)
      (hacks : ∀ r ∈ e.acks.voters, r ∈ e₀.acks.voters ∨
        input = .message (.accepted ⟨e.ballot, s, r⟩) ∧ before.ballot = e.ballot ∧
          e.ballot.owner = some t.id ∧ before.log.get? s = some e₀ ∧ e₀.isCommitted = false)
  /-- The replica proposed it. -/
  | asked (hc : e.isCommitted = false) (hb : e.ballot = t'.ballot)
      (hx : .broadcast (.accept ⟨e.ballot, s, e.command⟩) ∈ t'.effects)
      (hacks : ∀ r ∈ e.acks.voters, r = t.id)
  /-- The replica voted for it. -/
  | voted (hc : e.isCommitted = false) (hi : input = .message (.accept ⟨e.ballot, s, e.command⟩))
      (hb : e.ballot = t'.ballot)
  /-- A promise reported it. -/
  | reported (m : Promise) (r : PromisedEntry) (hi : input = .message (.promise m))
      (hr : m.log[s]? = some r) (hst : e.isCommitted = r.committed) (hc : e.command = r.command)
      (hb : e.isCommitted = false → e.ballot = r.ballot) (hm : m.ballot ≤ t'.ballot)
      (hnew : e.isCommitted = false →
        ∀ e₀, t.log.get? s = some e₀ → e₀.isCommitted = false ∧ e₀.ballot < e.ballot)
  /-- The replica announced it as chosen. -/
  | chosen (e₀ : LogEntry) (hs : t.log.get? s = some e₀) (he : e = e₀.commit)
      (hx : .broadcast (.commit ⟨e.ballot, s, e.command⟩) ∈ t'.effects)
  /-- It was announced as chosen. -/
  | learned (b : Ballot) (hc : e.isCommitted = true)
      (hi : input = .message (.commit ⟨b, s, e.command⟩))

namespace Origin

variable {before : Replica ρ σ} {input : Input} {t t' : Turn ρ σ} {s : Slot} {e : LogEntry}

/-- An entry that did not change. -/
theorem same (h : t.log.get? s = some e) : Origin before input t t' s e :=
  .kept e h rfl rfl rfl fun _ hr => Or.inl hr

end Origin

namespace Move

variable [RandomSource ρ] [StateMachine σ]
  {before : Replica ρ σ} {input : Input} {t t' : Turn ρ σ}

/-! ## Identity, ballot and promises -/

omit [StateMachine σ] in
/-- Scheduling another election leaves everything else alone. -/
theorem backOff_same (h : t.scheduleBackoff = .ok t') :
    t'.id = t.id ∧ t'.quorums = t.quorums ∧ t'.log = t.log ∧ t'.ballot = t.ballot ∧
      t'.active = t.active ∧ t'.promises = t.promises := by
  obtain ⟨_, _, _, rfl, -⟩ := Turn.scheduleBackoff_eq_ok h
  exact ⟨rfl, rfl, rfl, rfl, rfl, rfl⟩

omit [RandomSource ρ] in
/-- Execution touches the log and the state machine only. -/
theorem execute_same {e : LogEntry} (h : t.executeEntry e = .ok t') :
    t'.id = t.id ∧ t'.quorums = t.quorums ∧ t'.ballot = t.ballot ∧ t'.active = t.active ∧
      t'.promises = t.promises := by
  obtain ⟨_, _, _, -, rfl, -⟩ := Turn.executeEntry_eq_ok h
  exact ⟨rfl, rfl, rfl, rfl, rfl⟩

theorem id_eq (h : Move before input t t') : t'.id = t.id := by
  cases h with
  | execute t' e hs hc h => exact (execute_same h).1
  | backOff t' h => exact (backOff_same h).1
  | _ => rfl

theorem quorums_eq (h : Move before input t t') : t'.quorums = t.quorums := by
  cases h with
  | execute t' e hs hc h => exact (execute_same h).2.1
  | backOff t' h => exact (backOff_same h).2.1
  | _ => rfl

/-- The ballot only rises. -/
theorem ballot_le (h : Move before input t t') : t.ballot ≤ t'.ballot := by
  cases h with
  | elect ballot hlog ha hn => exact Std.le_of_lt (Ballot.lt_of_next hn)
  | execute t' e hs hc h => rw [(execute_same h).2.2.1]; exact Std.le_refl _
  | follow m hi hm hlt => exact Std.le_of_lt hlt
  | backOff t' h => rw [(backOff_same h).2.2.2.1]; exact Std.le_refl _
  | report m log displaced hi ha hle ho h => exact hle
  | _ => exact Std.le_refl _

/-- A new ballot is opened by the replica or carried by a message. -/
theorem ballot_cases (h : Move before input t t') :
    t'.ballot = t.ballot ∨ t'.ballot.owner = some t.id ∨
      ∃ m, input = .message m ∧ (∀ c, m ≠ .commit c) ∧ t'.ballot = m.ballot := by
  cases h with
  | elect ballot hlog ha hn => exact Or.inr (Or.inl (Ballot.owner_of_next hn))
  | execute t' e hs hc h => exact Or.inl (execute_same h).2.2.1
  | follow m hi hm hlt => exact Or.inr (Or.inr ⟨m, hi, hm, rfl⟩)
  | backOff t' h => exact Or.inl (backOff_same h).2.2.2.1
  | report m log displaced hi ha hle ho h =>
    exact Or.inr (Or.inr ⟨.promise m, hi, by simp, rfl⟩)
  | _ => exact Or.inl rfl

/-- The promises stay, start over with a ballot of the replica's own, or take in one for the
current ballot, together with what it reports. -/
theorem promises_cases (h : Move before input t t') :
    t'.promises = t.promises ∧ (t'.ballot = t.ballot ∨ ∃ m, input = .message m ∧
      (∀ c, m ≠ .commit c) ∧ t'.ballot = m.ballot ∧
        (t.ballot < m.ballot ∨ m.ballot.owner ≠ some t.id)) ∨
    t'.promises = Quorum.empty.ack t.id ∧ t'.log = t.log ∧ t.log = before.log ∧
      t.ballot < t'.ballot ∧ t'.ballot.owner = some t.id ∧
      .broadcast (.prepare ⟨t'.ballot, t.log.executeCursor⟩) ∈ t'.effects ∨
    ∃ m, input = .message (.promise m) ∧ t'.promises = t.promises.ack m.sender ∧
      t.toReplica = before ∧ t'.ballot = t.ballot ∧ m.ballot = t.ballot ∧
      t.ballot.owner = some t.id ∧ t.active = false ∧ Log.Merged t.log t'.log m.log := by
  cases h with
  | elect ballot hlog ha hn =>
    exact Or.inr (Or.inl ⟨rfl, rfl, hlog, Ballot.lt_of_next hn, Ballot.owner_of_next hn,
      by simp⟩)
  | execute t' e hs hc h =>
    exact Or.inl ⟨(execute_same h).2.2.2.2, Or.inl (execute_same h).2.2.1⟩
  | follow m hi hm hlt => exact Or.inl ⟨rfl, Or.inr ⟨m, hi, hm, rfl, Or.inl hlt⟩⟩
  | backOff t' h =>
    exact Or.inl ⟨(backOff_same h).2.2.2.2.2, Or.inl (backOff_same h).2.2.2.1⟩
  | report m log displaced hi ha hle ho h =>
    exact Or.inl ⟨rfl, Or.inr ⟨.promise m, hi, by simp, rfl, ho⟩⟩
  | countPromise m log displaced hi hstart ha hm ho h =>
    exact Or.inr (Or.inr ⟨m, hi, rfl, hstart, rfl, hm, ho, ha, Log.merged_merge h⟩)
  | _ => exact Or.inl ⟨rfl, Or.inl rfl⟩

/-! ## Messages -/

omit [RandomSource ρ] [StateMachine σ] in
/-- A move with a single new effect. -/
theorem emitted_one {x : Effect} (heff : t'.effects = t.effects ++ [x])
    (h : Emits before input t t' x) :
    ∃ more, t'.effects = t.effects ++ more ∧
      ∀ y ∈ more, y.IsMessage → Emits before input t t' y :=
  ⟨[x], heff, fun y hy _ => by rw [List.mem_singleton.mp hy]; exact h⟩

omit [RandomSource ρ] [StateMachine σ] in
/-- A move that sends nothing. -/
theorem emitted_none {more : List Effect} (heff : t'.effects = t.effects ++ more)
    (hquiet : ∀ x ∈ more, ¬ x.IsMessage) :
    ∃ more, t'.effects = t.effects ++ more ∧
      ∀ y ∈ more, y.IsMessage → Emits before input t t' y :=
  ⟨more, heff, fun y hy hm => absurd hm (hquiet y hy)⟩

/-- **Effects of a move.** Those before it stay, and a new message is one of `Emits`. -/
theorem emitted (h : Move before input t t') : ∃ more, t'.effects = t.effects ++ more ∧
    ∀ x ∈ more, x.IsMessage → Emits before input t t' x := by
  have hretries : ∀ requests : List ClientRequest, ∀ x ∈ requests.map Effect.retry,
      ¬ x.IsMessage := by
    intro requests x hx
    obtain ⟨r, -, rfl⟩ := List.mem_map.mp hx
    exact id
  cases h with
  | elect ballot hlog ha hn =>
    exact emitted_one rfl (.prepare hlog rfl (Ballot.lt_of_next hn) (Ballot.owner_of_next hn))
  | offer s command request ha hs hc =>
    exact emitted_one rfl (.ask s (.proposal t.ballot command request t.id t.now) ha rfl
      (by simp [hs]) (by simp [Turn.emit]) rfl rfl fun _ => hc)
  | offerAgain s e ha hs hc =>
    refine emitted_one rfl (.ask s (e.reopened t.ballot t.id t.now) ha rfl (fun e₀ he₀ => ?_)
      (by simp [Turn.emit]) hc rfl fun hnone => absurd (hs.symm.trans hnone) (by simp))
    rw [hs] at he₀
    cases he₀
    exact ⟨hc, rfl⟩
  | choose s e ho hs hc hb hq => exact emitted_one rfl (.choose s e ho hs hc hb hq)
  | execute t' e hs hc h =>
    obtain ⟨_, _, _, -, rfl, hquiet⟩ := Turn.executeEntry_eq_ok h
    exact emitted_none rfl fun x hx => Effect.not_isMessage (hquiet x hx)
  | backOff t' h =>
    obtain ⟨_, _, _, rfl, hquiet⟩ := Turn.scheduleBackoff_eq_ok h
    exact emitted_none rfl fun x hx => Effect.not_isMessage (hquiet x hx)
  | answer m candidate hi ho hle => exact emitted_one rfl (.answer m candidate hi ho hle rfl)
  | vote m proposer log displaced hi ho hb h =>
    refine ⟨_, List.append_assoc _ _ _, fun x hx hm => ?_⟩
    rcases List.mem_append.mp hx with hx | hx
    · exact absurd hm (hretries _ x hx)
    · rw [List.mem_singleton.mp hx, hb]
      exact .vote m proposer hi ho hb hb (Log.joined_vote h)
  | refuse m proposer hi hstart ho hlt =>
    exact emitted_one rfl (.refuse m proposer hi ho (congrArg Replica.ballot hstart) hlt rfl)
  | report m log displaced hi ha hle ho h => exact emitted_none rfl (hretries _)
  | countPromise m log displaced hi hstart ha hm ho h => exact emitted_none rfl (hretries _)
  | learn m log displaced hi h0 h => exact emitted_none rfl (hretries _)
  | _ => exact emitted_none (List.append_nil _).symm (by simp)

/-- Effects are never taken back. -/
theorem effects_sub (h : Move before input t t') {x : Effect} (hx : x ∈ t.effects) :
    x ∈ t'.effects := by
  obtain ⟨more, heff, -⟩ := h.emitted
  rw [heff]
  exact List.mem_append_left _ hx

/-- **Messages of a move.** -/
theorem emits (h : Move before input t t') {x : Effect} (hx : x ∈ t'.effects)
    (hm : x.IsMessage) : x ∈ t.effects ∨ Emits before input t t' x := by
  obtain ⟨more, heff, hmore⟩ := h.emitted
  rw [heff] at hx
  exact (List.mem_append.mp hx).imp_right fun hx => hmore x hx hm

/-! ## Entries -/

omit [RandomSource ρ] [StateMachine σ] in
/-- Entries after a promise was folded in. -/
theorem origin_of_merged {m : Promise} (hi : input = .message (.promise m))
    (hm : m.ballot ≤ t'.ballot) (hj : Log.Merged t.log t'.log m.log) {s : Slot} {e : LogEntry}
    (he : t'.log.get? s = some e) : Origin before input t t' s e := by
  by_cases hs : s = Slot.sentinel ∨ m.log[s]? = none
  · exact .same ((hj.kept s hs).symm.trans he)
  · obtain ⟨hs, hr⟩ := not_or.mp hs
    obtain ⟨r, hr⟩ := Option.ne_none_iff_exists'.mp hr
    rw [hj.joined s r hs hr, Option.some_inj] at he
    cases hc : e.isCommitted with
    | true =>
      rcases LogEntry.chosen_of_join he hc with h | ⟨hrc, hcmd⟩
      · exact .same h
      · exact .reported m r hi hr (hc.trans hrc.symm) hcmd (by simp [hc]) hm (by simp [hc])
    | false =>
      rcases LogEntry.vote_of_join he hc with h | ⟨hrc, hb, hcmd, hnew⟩
      · exact .same h
      · exact .reported m r hi hr (hc.trans hrc.symm) hcmd (fun _ => hb) hm
          fun _ e₀ h₀ => ⟨(hnew e₀ h₀).1, hb ▸ (hnew e₀ h₀).2⟩

/-- **Entries after a move.** -/
theorem origin (h : Move before input t t') {s : Slot} {e : LogEntry}
    (he : t'.log.get? s = some e) : Origin before input t t' s e := by
  cases h with
  | offer slot command request ha hs hc =>
    simp only [Turn.emit, Log.get?_set, Log.get?_observe] at he
    split at he
    · rename_i heq
      cases he
      subst heq
      refine .asked rfl rfl (by simp [LogEntry.proposal]) fun r hr => ?_
      rcases Quorum.mem_ack.mp hr with hr | rfl
      · cases hr
      · rfl
    · exact .same he
  | offerAgain slot e₀ ha hs hc =>
    simp only [Turn.emit, Log.get?_set] at he
    split at he
    · rename_i heq
      cases he
      subst heq
      refine .asked hc rfl (by simp [LogEntry.reopened]) fun r hr => ?_
      rcases Quorum.mem_ack.mp hr with hr | rfl
      · cases hr
      · rfl
    · exact .same he
  | choose slot e₀ ho hs hc hb hq =>
    simp only [Turn.emit, Log.get?_set] at he
    split at he
    · rename_i heq
      cases he
      subst heq
      exact .chosen e₀ hs rfl (by simp [LogEntry.commit])
    · exact .same he
  | execute t' e₀ hs hc h =>
    obtain ⟨_, _, _, -, rfl, -⟩ := Turn.executeEntry_eq_ok h
    change (t.log.set t.log.executeCursor e₀.withoutRequest).get? s = some e at he
    rw [Log.get?_set] at he
    split at he
    · rename_i heq
      cases he
      subst heq
      exact .kept e₀ hs rfl rfl rfl fun _ hr => Or.inl hr
    · exact .same he
  | backOff t' h => exact .same ((backOff_same h).2.2.1 ▸ he)
  | vote m proposer log displaced hi ho hb h =>
    have hj := Log.joined_vote h
    change log.get? s = some e at he
    rw [hj.get?] at he
    split at he
    · rename_i heq
      subst heq
      rw [Option.some_inj] at he
      cases hc : e.isCommitted with
      | true =>
        rcases LogEntry.chosen_of_join he hc with h | ⟨hr, -⟩
        · exact .same h
        · cases hr
      | false =>
        rcases LogEntry.vote_of_join he hc with h | ⟨-, heb, hec, -⟩
        · exact .same h
        · exact .voted hc (by rw [hi, heb, hec]) (heb.trans hb.symm)
    · exact .same he
  | report m log displaced hi ha hle ho h =>
    exact origin_of_merged hi (Std.le_refl _) (Log.merged_merge h) he
  | countPromise m log displaced hi hstart ha hm ho h =>
    exact origin_of_merged hi (hm ▸ Std.le_refl _) (Log.merged_merge h) he
  | countVote m e₀ hi hstart hs hc hb hm ho =>
    change (t.log.set m.slot (e₀.ack m.sender)).get? s = some e at he
    rw [Log.get?_set] at he
    split at he
    · rename_i heq
      cases he
      subst heq
      refine .kept e₀ hs rfl rfl rfl fun r hr => ?_
      rcases Quorum.mem_ack.mp hr with hr | rfl
      · exact Or.inl hr
      · have hmb : m.ballot = e₀.ballot := hm.trans hb.symm
        refine Or.inr ⟨?_, ?_, ?_, ?_, hc⟩
        · rw [hi]
          show _ = Input.message (.accepted ⟨e₀.ballot, _, _⟩)
          rw [← hmb]
        · rw [← hstart]; exact hb.symm
        · exact hb ▸ ho
        · rw [← hstart]; exact hs
    · exact .same he
  | learn m log displaced hi h0 h =>
    have hj := Log.joined_learn h
    change log.get? s = some e at he
    rw [hj.get?] at he
    split at he
    · rename_i heq
      subst heq
      rw [Option.some_inj] at he
      cases hc : e.isCommitted with
      | true =>
        rcases LogEntry.chosen_of_join he hc with h | ⟨-, hec⟩
        · exact .same h
        · exact .learned m.ballot hc (by rw [hi, hec])
      | false =>
        rcases LogEntry.vote_of_join he hc with h | ⟨hr, -⟩
        · exact .same h
        · cases hr
    · exact .same he
  | _ => exact .same he

/-- Entries grow and the cursor moves on, or a new leader proposes the command of a vote again. -/
theorem growth (h : Move before input t t') : t.log.Grows t'.log ∨
    ∃ s e, t.active = true ∧ before.active = false ∧ t.log.Open s e ∧
      t'.log = t.log.set s (e.reopened t.ballot t.id t.now) := by
  cases h with
  | offer s command request ha hs hc => exact .inl (Log.grows_insert hs _)
  | offerAgain s e ha hs hc hnew => exact .inr ⟨s, e, ha, hnew, ⟨hs, hc⟩, rfl⟩
  | choose s e ho hs hc hb hq => exact .inl (Log.grows_set hs e.grows_commit)
  | execute t' e hs hc h =>
    obtain ⟨cursor, _, _, hcur, rfl, -⟩ := Turn.executeEntry_eq_ok h
    have hg : t.log.Grows (t.log.set _ e.withoutRequest) :=
      Log.grows_set hs (LogEntry.grows_of_eq rfl rfl rfl)
    refine .inl ⟨hg.entry, ?_⟩
    have := toNat_of_checkedSucc hcur
    show t.log.executeCursor ≤ cursor
    rw [UInt64.le_iff_toNat_le]
    omega
  | backOff t' h => rw [(backOff_same h).2.2.1]; exact .inl (Log.grows_refl _)
  | vote m proposer log displaced hi ho hb h => exact .inl (Log.joined_vote h).grows
  | report m log displaced hi ha hle ho h => exact .inl (Log.merged_merge h).grows
  | countPromise m log displaced hi hstart ha hm ho h => exact .inl (Log.merged_merge h).grows
  | countVote m e hi hstart hs hc hb hm ho =>
    exact .inl (Log.grows_set hs (LogEntry.grows_of_eq rfl rfl rfl))
  | learn m log displaced hi h0 h => exact .inl (Log.joined_learn h).grows
  | _ => exact .inl (Log.grows_refl _)

/-- Entries grow and the cursor moves on, if votes are not above the ballot of the replica. -/
theorem grows (h : Move before input t t')
    (hle : ∀ s e, t.log.get? s = some e → e.isCommitted = false → e.ballot ≤ t.ballot) :
    t.log.Grows t'.log := by
  rcases h.growth with hg | ⟨s, e, -, -, ⟨hs, hc⟩, hlog⟩
  · exact hg
  · have hvote : e.isCommitted ≠ true := by simp [hc]
    rw [hlog]
    exact Log.grows_set hs ⟨fun h => absurd h hvote, fun _ => hle s e hs hc, fun _ _ => rfl⟩

/-- **What is chosen stays**: only execution touches a chosen entry, and only its request. -/
theorem chosen_kept (h : Move before input t t') {s : Slot} {e : LogEntry}
    (hs : t.log.get? s = some e) (hc : e.isCommitted = true) :
    t'.log.get? s = some e ∧ (s = t.log.executeCursor →
        t'.log.executeCursor = t.log.executeCursor) ∨
      s = t.log.executeCursor ∧ t'.log.get? s = some e.withoutRequest := by
  have hne : ∀ {u e₀}, t.log.get? u = some e₀ → e₀.isCommitted = false → u ≠ s := by
    rintro u e₀ hu hc₀ rfl
    rw [hs, Option.some_inj] at hu
    rw [← hu, hc] at hc₀
    cases hc₀
  cases h with
  | offer u command request ha hu hcmd =>
    have hne : u ≠ s := by rintro rfl; rw [hu] at hs; cases hs
    exact .inl ⟨by simp only [Turn.emit, Log.get?_set, Log.get?_observe, if_neg hne, hs],
      fun _ => by simp [Turn.emit]⟩
  | offerAgain u e₀ ha hu hc₀ =>
    exact .inl ⟨by simp only [Turn.emit, Log.get?_set, if_neg (hne hu hc₀), hs], fun _ => rfl⟩
  | choose u e₀ ho hu hc₀ hb hq =>
    exact .inl ⟨by simp only [Turn.emit, Log.get?_set, if_neg (hne hu hc₀), hs], fun _ => rfl⟩
  | execute t' e₀ he₀ hc₀ h =>
    obtain ⟨cursor, _, _, -, rfl, -⟩ := Turn.executeEntry_eq_ok h
    have hget : (t.log.set t.log.executeCursor e₀.withoutRequest).get? s =
        if t.log.executeCursor = s then some e₀.withoutRequest else t.log.get? s :=
      Log.get?_set _ _ _ _
    by_cases heq : t.log.executeCursor = s
    · subst heq
      rw [he₀, Option.some_inj] at hs
      exact .inr ⟨rfl, hs ▸ hget.trans (if_pos rfl)⟩
    · exact .inl ⟨hget.trans ((if_neg heq).trans hs), fun hse => absurd hse.symm heq⟩
  | backOff t' h => rw [(backOff_same h).2.2.1]; exact .inl ⟨hs, fun _ => rfl⟩
  | vote m proposer log displaced hi ho hb h =>
    exact .inl ⟨(Log.joined_vote h).chosen hs hc, fun _ => (Log.joined_vote h).cursor⟩
  | report m log displaced hi ha hle ho h =>
    exact .inl ⟨(Log.merged_merge h).chosen hs hc, fun _ => (Log.merged_merge h).cursor⟩
  | countPromise m log displaced hi hstart ha hm ho h =>
    exact .inl ⟨(Log.merged_merge h).chosen hs hc, fun _ => (Log.merged_merge h).cursor⟩
  | countVote m e₀ hi hstart hu hc₀ hb hm ho =>
    exact .inl ⟨by simp only [Log.get?_set, if_neg (hne hu hc₀), hs], fun _ => rfl⟩
  | learn m log displaced hi h0 h =>
    exact .inl ⟨(Log.joined_learn h).chosen hs hc, fun _ => (Log.joined_learn h).cursor⟩
  | _ => exact .inl ⟨hs, fun _ => rfl⟩

/-- **A move leaves chosen entries as they are**, but for the request that execution answers. -/
theorem frozen (h : Move before input t t') {s : Slot} {e : LogEntry}
    (hs : t.log.get? s = some e) (hc : e.isCommitted = true) :
    ∃ e', t'.log.get? s = some e' ∧ e'.isCommitted = true ∧ e'.ballot = e.ballot ∧
      e'.command = e.command := by
  rcases h.chosen_kept hs hc with ⟨he', -⟩ | ⟨-, he'⟩
  · exact ⟨e, he', hc, rfl, rfl⟩
  · exact ⟨_, he', hc, rfl, rfl⟩

/-- Chosen entries stay chosen, with their commands. -/
theorem still_chosen (h : Move before input t t') {s : Slot} {e : LogEntry}
    (hs : t.log.get? s = some e) (hc : e.isCommitted = true) :
    ∃ e', t'.log.get? s = some e' ∧ e'.isCommitted = true ∧ e'.command = e.command := by
  obtain ⟨e', he', hc', -, hcmd⟩ := h.frozen hs hc
  exact ⟨e', he', hc', hcmd⟩

/-- The same of moves one after another. -/
theorem moves_still_chosen (h : Moves before input t t') {s : Slot} {e : LogEntry}
    (hs : t.log.get? s = some e) (hc : e.isCommitted = true) :
    ∃ e', t'.log.get? s = some e' ∧ e'.isCommitted = true ∧ e'.command = e.command := by
  induction h with
  | refl => exact ⟨e, hs, hc, rfl⟩
  | tail _ hmove ih =>
    obtain ⟨e₁, he₁, hc₁, hcmd₁⟩ := ih
    obtain ⟨e₂, he₂, hc₂, hcmd₂⟩ := hmove.still_chosen he₁ hc₁
    exact ⟨e₂, he₂, hc₂, hcmd₂.trans hcmd₁⟩

/-- The cursor stays, or a chosen entry was there and it moves on by one. -/
theorem cursor_cases (h : Move before input t t') :
    t'.log.executeCursor = t.log.executeCursor ∨
      (∃ e, t.log.get? t.log.executeCursor = some e ∧ e.isCommitted = true) ∧
        t.log.executeCursor.next = .ok t'.log.executeCursor := by
  cases h with
  | offer s command request ha hs hc => exact .inl (by simp [Turn.emit])
  | execute t' e hs hc h =>
    obtain ⟨cursor, _, _, hcur, rfl, -⟩ := Turn.executeEntry_eq_ok h
    exact .inr ⟨⟨e, hs, hc⟩, hcur⟩
  | backOff t' h => rw [(backOff_same h).2.2.1]; exact .inl rfl
  | vote m proposer log displaced hi ho hb h => exact .inl (Log.joined_vote h).cursor
  | report m log displaced hi ha hle ho h => exact .inl (Log.merged_merge h).cursor
  | countPromise m log displaced hi hstart ha hm ho h => exact .inl (Log.merged_merge h).cursor
  | learn m log displaced hi h0 h => exact .inl (Log.joined_learn h).cursor
  | _ => exact .inl rfl

/-- The cursor only moves on. -/
theorem cursor_le (h : Move before input t t') : t.log.executeCursor ≤ t'.log.executeCursor := by
  rcases h.cursor_cases with heq | ⟨-, hnext⟩
  · rw [heq]; exact Std.le_refl _
  · have := toNat_of_checkedSucc hnext
    rw [UInt64.le_iff_toNat_le]
    omega

/-- No slot that exists is forgotten. -/
theorem highestSlot_le (h : Move before input t t') : t.log.highestSlot ≤ t'.log.highestSlot := by
  cases h with
  | offer s command request ha hs hc =>
    exact (t.log.le_highestSlot_observe s).1
  | execute t' e hs hc h =>
    obtain ⟨_, _, _, -, rfl, -⟩ := Turn.executeEntry_eq_ok h
    exact Std.le_refl _
  | backOff t' h => rw [(backOff_same h).2.2.1]; exact Std.le_refl _
  | vote m proposer log displaced hi ho hb h =>
    exact (Log.joined_vote h).highestSlot_le
  | report m log displaced hi ha hle ho h => exact (Log.merged_merge h).highest
  | countPromise m log displaced hi hstart ha hm ho h => exact (Log.merged_merge h).highest
  | learn m log displaced hi h0 h => exact (Log.joined_learn h).highestSlot_le
  | _ => exact Std.le_refl _

/-- The same of moves one after another. -/
theorem moves_highestSlot_le (h : Moves before input t t') :
    t.log.highestSlot ≤ t'.log.highestSlot := by
  induction h with
  | refl => exact Std.le_refl _
  | tail _ hmove ih => exact Std.le_trans ih hmove.highestSlot_le

/-- Entries that own a request hold its command. -/
theorem owns (h : Move before input t t') (hown : t.log.Owning) : t'.log.Owning := by
  cases h with
  | offer s command request ha hs hc =>
    intro u e r he hr
    simp only [Turn.emit, Log.get?_set, Log.get?_observe] at he
    split at he
    · cases he
      change request = some r at hr
      rw [hr] at hc
      exact hc
    · exact hown u e r he hr
  | offerAgain s e ha hs hc => exact hown.set _ (fun r hr => hown s e r hs hr)
  | choose s e ho hs hc hb hq => exact hown.set _ (fun r hr => hown s e r hs hr)
  | execute t' e hs hc h =>
    obtain ⟨_, _, _, -, rfl, -⟩ := Turn.executeEntry_eq_ok h
    exact hown.set _ (fun r hr => by cases hr)
  | backOff t' h => rw [(backOff_same h).2.2.1]; exact hown
  | vote m proposer log displaced hi ho hb h => exact hown.joined (Log.joined_vote h)
  | report m log displaced hi ha hle ho h => exact hown.merged (Log.merged_merge h)
  | countPromise m log displaced hi hstart ha hm ho h => exact hown.merged (Log.merged_merge h)
  | countVote m e hi hstart hs hc hb hm ho => exact hown.set _ (fun r hr => hown _ e r hs hr)
  | learn m log displaced hi h0 h => exact hown.joined (Log.joined_learn h)
  | _ => exact hown

end Move

end PaxosLog
