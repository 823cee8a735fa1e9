import PaxosLog.Proofs.Replica.Authentic

/-!
# How votes are counted

An entry collects the acknowledgements for it, and keeps them when a vote for another command, or
under another ballot, replaces it: only a proposal starts the count over, and only an
acknowledgement adds to it. An entry with enough of them is chosen at once.

* `Move.polls`: each move asks for votes, counts one, chooses, or does nothing of this (`Polls`).
  What a report brings into the log (`Log.Brought`) has the acknowledgements that were there.
* **`below_of_step`**: between two inputs, every vote of the log has too few acknowledgements,
  whatever peers say (`Log.Below`).
* `announces_of_step`: what a step announces, it announces under the ballot with which it ends.
-/

namespace PaxosLog

theorem LogEntry.acks_reported (p : PromisedEntry) : (reported p).acks = .empty := by
  unfold reported
  split <;> rfl

theorem LogEntry.acks_replaced (e : LogEntry) (b : Ballot) (c : Command) :
    (e.replaced b c).acks = e.acks := by
  unfold replaced
  split <;> rfl

/-- A report adds no acknowledgement. -/
theorem LogEntry.acks_join (p : PromisedEntry) (local? : Option LogEntry) :
    (join p local?).acks = (local?.map LogEntry.acks).getD .empty := by
  unfold join
  cases local? with
  | none => exact acks_reported p
  | some e =>
    simp only [Option.map_some, Option.getD_some]
    split
    · rfl
    · split
      · exact acks_replaced e p.ballot p.command
      · split
        · exact acks_replaced e p.ballot p.command
        · rfl

theorem Quorum.size_empty : empty.size = 0 := rfl

theorem Quorum.mem_empty_ack {a id : ReplicaId} : a ∈ (empty.ack id).voters ↔ a = id := by
  rw [mem_ack]
  exact ⟨fun h => h.resolve_left (by simp [empty]), .inr⟩

theorem Quorum.size_ack_le (q : Quorum) (id : ReplicaId) : (q.ack id).size ≤ q.size + 1 := by
  rw [size_ack]
  split <;> omega

namespace Log

/-! ## What a report brings -/

/-- A report on slot `s` brought the vote `e`: it replaces at most a vote under a lower ballot,
whose acknowledgements it takes over. -/
structure Brought (log : Log) (s : Slot) (p : PromisedEntry) (e : LogEntry) : Prop where
  ballot : e.ballot = p.ballot
  command : e.command = p.command
  above : ∀ e₀, log.get? s = some e₀ → e₀.isCommitted = false ∧ e₀.ballot < e.ballot
  acks : e.acks = ((log.get? s).map LogEntry.acks).getD .empty

theorem brought_of_join {log : Log} {s : Slot} {p : PromisedEntry} {e : LogEntry}
    (h : LogEntry.join p (log.get? s) = e) (hc : e.isCommitted = false) :
    log.Open s e ∨ log.Brought s p e := by
  rcases LogEntry.vote_of_join h hc with hold | ⟨-, hb, hcmd, habove⟩
  · exact .inl ⟨hold, hc⟩
  · exact .inr ⟨hb, hcmd, fun e₀ he₀ => hb ▸ habove e₀ he₀, h ▸ LogEntry.acks_join p _⟩

theorem Joined.brought {log log' : Log} {s u : Slot} {p : PromisedEntry} {e : LogEntry}
    (hj : Joined log log' s p) (ho : log'.Open u e) :
    log.Open u e ∨ s = u ∧ log.Brought u p e := by
  obtain ⟨he, hc⟩ := ho
  rw [hj.get?] at he
  split at he
  · rename_i hsu
    subst hsu
    exact (brought_of_join (Option.some_inj.mp he) hc).imp_right fun hnew => ⟨rfl, hnew⟩
  · exact .inl ⟨he, hc⟩

theorem Merged.brought {log log' : Log} {reported : SlotMap PromisedEntry} {u : Slot} {e : LogEntry}
    (hj : Merged log log' reported) (ho : log'.Open u e) :
    log.Open u e ∨ ∃ p, reported[u]? = some p ∧ log.Brought u p e := by
  obtain ⟨he, hc⟩ := ho
  by_cases hu : u = Slot.sentinel ∨ reported[u]? = none
  · exact .inl ⟨(hj.kept u hu).symm.trans he, hc⟩
  · obtain ⟨h0, hp⟩ := not_or.mp hu
    obtain ⟨p, hp⟩ := Option.ne_none_iff_exists'.mp hp
    rw [hj.joined u p h0 hp, Option.some_inj] at he
    exact (brought_of_join he hc).imp_right fun hnew => ⟨p, hp, hnew⟩

/-! ## Votes with few acknowledgements -/

/-- Every vote has fewer than `k` acknowledgements. -/
def Below (log : Log) (k : Nat) : Prop := ∀ s e, log.Open s e → e.acks.size < k

theorem Below.brought {log : Log} {k : Nat} {s : Slot} {p : PromisedEntry} {e : LogEntry}
    (h : log.Below k) (hk : 0 < k) (hnew : log.Brought s p e) : e.acks.size < k := by
  rw [hnew.acks]
  cases he : log.get? s with
  | none => exact hk
  | some e₀ => exact h s e₀ ⟨he, (hnew.above e₀ he).1⟩

theorem Below.joined {log log' : Log} {k : Nat} {s : Slot} {p : PromisedEntry} (h : log.Below k)
    (hk : 0 < k) (hj : Joined log log' s p) : log'.Below k := by
  intro u e ho
  rcases hj.brought ho with hold | ⟨-, hnew⟩
  · exact h u e hold
  · exact h.brought hk hnew

theorem Below.merged {log log' : Log} {k : Nat} {reported : SlotMap PromisedEntry}
    (h : log.Below k) (hk : 0 < k) (hj : Merged log log' reported) : log'.Below k := by
  intro u e ho
  rcases hj.brought ho with hold | ⟨p, -, hnew⟩
  · exact h u e hold
  · exact h.brought hk hnew

end Log

/-- The effect asks for votes or announces a choice. -/
def Effect.IsPoll : Effect → Prop
  | .broadcast (.accept _) => True
  | .broadcast (.commit _) => True
  | _ => False

theorem Effect.not_isPoll {x : Effect} (h : ∀ m, x ≠ .broadcast m) : ¬ x.IsPoll := by
  cases x with
  | broadcast m => exact absurd rfl (h m)
  | _ => exact id

variable {ρ σ : Type}

/-! ## Moves -/

/-- What a move from `t` to `t'` does to the votes of the log. -/
inductive Polls (before : Replica ρ σ) (input : Input) (t t' : Turn ρ σ) : Prop
  /-- Votes for `e` are asked for. The own one is all that it counts. -/
  | ask (s : Slot) (e : LogEntry) (hb : e.ballot = t.ballot)
      (hacks : e.acks = Quorum.empty.ack t.id)
      (hnew : t.log.get? s = none ∨ before.active = false) (hballot : t'.ballot = t.ballot)
      (hlog : ∀ u f, t'.log.Open u f → u = s ∧ f = e ∨ u ≠ s ∧ t.log.Open u f)
      (hx : t'.effects = t.effects ++ [.broadcast (.accept ⟨t.ballot, s, e.command⟩)])
  /-- An acknowledgement is counted. -/
  | count (m : Accepted) (hi : input = .message (.accepted m)) (hx : t'.effects = t.effects)
  /-- An entry with a quorum is chosen. -/
  | choose (s : Slot) (e : LogEntry) (ho : t.log.Open s e) (hown : t.ballot.owner = some t.id)
      (hb : e.ballot = t.ballot) (hq : t.quorums.phase2 ≤ e.acks.size)
      (h : t' = { t with log := t.log.set s e.commit }.emit
        (.broadcast (.commit ⟨e.ballot, s, e.command⟩)))
  /-- Nothing is asked for, counted or chosen here. What is new in the log was reported. -/
  | other (more : List Effect) (hx : t'.effects = t.effects ++ more)
      (hquiet : ∀ x ∈ more, ¬ x.IsPoll)
      (hlog : ∀ s e, t'.log.Open s e → t.log.Open s e ∨ ∃ m p, input = .message m ∧
        ⟨p.ballot, s, p.command⟩ ∈ m.cited ∧ t.log.Brought s p e)

namespace Polls

variable {before : Replica ρ σ} {input : Input} {t t' : Turn ρ σ}

/-- A move that leaves the log alone. -/
theorem of_same {more : List Effect} (hlog : t'.log = t.log) (hx : t'.effects = t.effects ++ more)
    (hquiet : ∀ x ∈ more, ¬ x.IsPoll) : Polls before input t t' :=
  .other more hx hquiet fun _ _ ho => .inl (hlog ▸ ho)

end Polls

theorem not_isPoll_retry {requests : List ClientRequest} {x : Effect}
    (hx : x ∈ requests.map Effect.retry) : ¬ x.IsPoll := by
  obtain ⟨r, -, rfl⟩ := List.mem_map.mp hx
  exact id

variable [RandomSource ρ] [StateMachine σ] {before : Replica ρ σ} {input : Input} {t t' : Turn ρ σ}

/-- **Every move is of one of these kinds.** -/
theorem Move.polls (h : Move before input t t') : Polls before input t t' := by
  have hnone : ∀ x ∈ ([] : List Effect), ¬ x.IsPoll := by simp
  cases h with
  | elect ballot hlog ha hn =>
    refine .of_same rfl rfl fun x hx => ?_
    rw [List.mem_singleton.mp hx]
    exact id
  | offer s command request ha hs hc =>
    exact .ask s (.proposal t.ballot command request t.id t.now) rfl rfl (.inl hs) rfl
      (fun u f ho => (Log.open_set ho).imp_right (And.imp_right Log.open_observe.mp)) rfl
  | offerAgain s e ha hs hc hnew =>
    exact .ask s (e.reopened t.ballot t.id t.now) rfl rfl (.inr hnew) rfl
      (fun u f ho => Log.open_set ho) rfl
  | choose s e ho hs hc hb hq => exact .choose s e ⟨hs, hc⟩ ho hb (of_decide_eq_true hq) rfl
  | execute t' e hs hc h =>
    obtain ⟨_, _, effects, -, rfl, hquiet⟩ := Turn.executeEntry_eq_ok h
    refine .other effects rfl (fun x hx => Effect.not_isPoll fun m => (hquiet x hx m).1)
      fun u f ho => .inl ?_
    have hset : (t.log.set t.log.executeCursor e.withoutRequest).Open u f := ⟨ho.entry, ho.vote⟩
    have hchosen : e.withoutRequest.isCommitted = true := hc
    exact (Log.open_of_set_chosen hchosen hset).2
  | backOff t' h =>
    obtain ⟨_, _, effects, rfl, hquiet⟩ := Turn.scheduleBackoff_eq_ok h
    exact .of_same rfl rfl fun x hx => Effect.not_isPoll fun m => (hquiet x hx m).1
  | answer m candidate hi ho hle =>
    refine .of_same rfl rfl fun x hx => ?_
    rw [List.mem_singleton.mp hx]
    exact id
  | refuse m proposer hi hstart ho hlt =>
    refine .of_same rfl rfl fun x hx => ?_
    rw [List.mem_singleton.mp hx]
    exact id
  | vote m proposer log displaced hi ho hb h =>
    refine .other _ (List.append_assoc _ _ _) (fun x hx => ?_) fun u f hopen => ?_
    · rcases List.mem_append.mp hx with hx | hx
      · exact not_isPoll_retry hx
      · rw [List.mem_singleton.mp hx]
        exact id
    · refine ((Log.joined_vote h).brought hopen).imp_right fun ⟨hsu, hnew⟩ => ?_
      subst hsu
      exact ⟨.accept m, _, hi, List.mem_singleton.mpr rfl, hnew⟩
  | report m log displaced hi ha hle ho h =>
    refine .other _ rfl (fun x => not_isPoll_retry) fun u f hopen => ?_
    refine ((Log.merged_merge h).brought hopen).imp_right fun ⟨p, hp, hnew⟩ => ?_
    exact ⟨.promise m, p, hi, Message.mem_cited_promise hp, hnew⟩
  | countPromise m log displaced hi hstart ha hm ho h =>
    refine .other _ rfl (fun x => not_isPoll_retry) fun u f hopen => ?_
    refine ((Log.merged_merge h).brought hopen).imp_right fun ⟨p, hp, hnew⟩ => ?_
    exact ⟨.promise m, p, hi, Message.mem_cited_promise hp, hnew⟩
  | countVote m e hi hstart hs hc hb hm ho => exact .count m hi rfl
  | learn m log displaced hi h0 h =>
    exact .other _ rfl (fun x => not_isPoll_retry) fun u f hopen =>
      .inl (Log.open_of_learn (Log.joined_learn h) hopen)
  | _ => exact .of_same rfl (List.append_nil _).symm hnone

/-! ## Between two inputs -/

omit [RandomSource ρ] [StateMachine σ] in
theorem Replica.Awaits.below {r : Replica ρ σ} {e : LogEntry} (h : r.Awaits e) :
    e.acks.size < r.quorums.phase2 := by
  have hfew := h.few
  simpa [QuorumSpec.phase2Reached] using hfew

namespace Turn

omit [RandomSource ρ] in
theorem below_executeReady {k : Nat} (hb : t.log.Below k) (h : t.executeReady = .ok t') :
    t'.log.Below k :=
  fun s e ho => hb s e (open_executeUpTo h ho)

/-- A new leader has proposed everything. -/
theorem below_countPromises (ht : Tidy t.toReplica) (ha : t.active = false)
    (hown : t.ballot.owner = some t.id) (hb : t.log.Below t.quorums.phase2)
    (h : t.countPromises = .ok t') : t'.log.Below t.quorums.phase2 := by
  unfold countPromises at h
  split at h
  · intro s e ho
    obtain ⟨t₁, t₂, -, -, -, hw₁, hw₂, hw₃⟩ := takeOver_eq_ok t.toReplica .elect ha hown h
    have hact : t'.active = true := hw₃.active.trans (hw₂.active.trans hw₁.active)
    have hawaits := (dutiful_takeOver ht ha hown h).awaiting hact s e ho
    rw [hw₃.awaits_iff, hw₂.awaits_iff] at hawaits
    exact (hw₁.awaits_iff.mp (hawaits.of_eq rfl rfl rfl)).below
  · cases h; exact hb

theorem below_elect (ht : Tidy t.toReplica) (hb : t.log.Below t.quorums.phase2)
    (h : t.elect = .ok t') : t'.log.Below t.quorums.phase2 := by
  unfold elect at h
  split at h
  · cases h; exact hb
  · rename_i ha
    rw [Bool.not_eq_true] at ha
    obtain ⟨ballot, hn, h⟩ := bind_eq_ok.mp h
    have hmove : Move t.toReplica .elect t _ := .elect ballot rfl ha hn (by simp) rfl
    have hb' := below_countPromises (ht.move hmove) ha (Ballot.owner_of_next hn) hb h
    exact hb'

theorem below_onRequest {request : ClientRequest} (ht : Tidy t.toReplica)
    (hb : t.log.Below t.quorums.phase2) (h : t.onRequest request = .ok t') :
    t'.log.Below t.quorums.phase2 := by
  unfold onRequest at h
  split at h
  · intro s e ho
    exact (open_propose h ho).elim Replica.Awaits.below (hb s e)
  · rename_i ha
    rw [Bool.not_eq_true] at ha
    simp only at h
    split at h
    · cases h; exact hb
    · have hmove : Move t.toReplica (.request request) t _ := .enqueue request rfl ha
      exact below_elect (t := { t with pending := t.pending ++ [request] }) (ht.move hmove) hb h

omit [StateMachine σ] in
theorem log_follow {b : Ballot} (h : t.follow b = .ok t') : t'.log = t.log := by
  obtain ⟨_, _, _, _, rfl, -⟩ := follow_eq_ok h
  rfl

theorem below_onPromise {m : Promise} (ht : Tidy t.toReplica)
    (hb : t.log.Below t.quorums.phase2) (h : t.onPromise m = .ok t') :
    t'.log.Below t.quorums.phase2 := by
  have hmerged : ∀ {log displaced}, t.log.merge m.log = .ok (log, displaced) →
      log.Below t.quorums.phase2 := fun hmerge =>
    hb.merged t.quorums.phase2_pos (Log.merged_merge hmerge)
  cases onPromise_eq_ok h with
  | ignored hn h => subst h; exact hb
  | superseded log displaced t₁ ha hlt hmerge h₁ h₂ =>
    obtain ⟨_, _, _, rfl, -⟩ := scheduleBackoff_eq_ok h₁
    exact below_executeReady (hmerged hmerge) h₂
  | counted log displaced t₁ ha hm ho hmerge h₁ h₂ =>
    have hmove : Move t.toReplica (.message (.promise m)) t _ :=
      .countPromise m log displaced rfl rfl ha hm ho hmerge
    have hb₁ : t₁.log.Below t.quorums.phase2 := below_countPromises
      (t := { t.withLog log displaced with promises := t.promises.ack m.sender })
      (ht.move hmove) ha ho (hmerged hmerge) h₁
    exact below_executeReady hb₁ h₂
  | reported log displaced ha hm ho hmerge h =>
    exact below_executeReady (t := t.withLog log displaced) (hmerged hmerge) h

theorem below_onAccepted {m : Accepted} (hb : t.log.Below t.quorums.phase2)
    (h : t.onAccepted m = .ok t') : t'.log.Below t.quorums.phase2 := by
  cases onAccepted_eq_ok h with
  | ignored h => subst h; exact hb
  | superseded hlt h => rw [log_follow h]; exact hb
  | counted e₀ he₀ hc hbal hm hown h =>
    intro s e hopen
    obtain ⟨hopen, hfew⟩ := open_countVotes h hopen
    rcases Log.open_set hopen with ⟨hs, -⟩ | ⟨-, hold⟩
    · simpa [QuorumSpec.phase2Reached] using hfew hs
    · exact hb s e hold

theorem below_onMessage {m : Message} (ht : Tidy t.toReplica)
    (hb : t.log.Below t.quorums.phase2) (h : t.onMessage m = .ok t') :
    t'.log.Below t.quorums.phase2 := by
  cases m with
  | prepare m =>
    change t.onPrepare m = .ok t' at h
    unfold onPrepare at h
    split at h
    · cases h; exact hb
    · obtain ⟨t₁, h₁, h₂⟩ := bind_eq_ok.mp h
      cases h₂
      show t₁.log.Below _
      rw [log_follow h₁]
      exact hb
  | promise m => exact below_onPromise ht hb h
  | accept m =>
    cases onAccept_eq_ok h with
    | ignored h => subst h; exact hb
    | refused proposer ho hlt h => subst h; exact hb
    | voted proposer t₁ log displaced ho hle h₁ hvote h =>
      subst h
      rw [← log_follow h₁] at hb
      exact hb.joined t.quorums.phase2_pos (Log.joined_vote hvote)
  | accepted m => exact below_onAccepted hb h
  | commit m =>
    change t.onCommit m = .ok t' at h
    unfold onCommit at h
    split at h
    · cases h; exact hb
    · obtain ⟨⟨log, displaced⟩, hlearn, h⟩ := bind_eq_ok.mp h
      exact below_executeReady (t := t.withLog log displaced.toList)
        (hb.joined t.quorums.phase2_pos (Log.joined_learn hlearn)) h

end Turn

/-- **A step leaves no vote with a quorum.** -/
theorem below_of_step {r r' : Replica ρ σ} {now : Duration} {out : List Effect} (ht : Tidy r)
    (hb : r.log.Below r.quorums.phase2) (h : r.step now input = .ok (r', out)) :
    r'.log.Below r.quorums.phase2 := by
  obtain ⟨t, ht', heq⟩ := map_eq_ok.mp h
  cases heq
  cases input with
  | request request =>
    exact Turn.below_onRequest (t := { r with now, effects := [] }) ht hb ht'
  | elect => exact Turn.below_elect (t := { r with now, effects := [] }) ht hb ht'
  | backoffElapsed =>
    obtain ⟨t₁, h₁, rfl⟩ := map_eq_ok.mp ht'
    have hb₁ := Turn.below_elect (t := { r with now, effects := [] }) ht hb h₁
    exact hb₁
  | message m => exact Turn.below_onMessage (t := { r with now, effects := [] }) ht hb ht'

/-! ## Announcements and ballots -/

namespace Turn

theorem moves_countPromises (hnew : before.active = false) (ha : t.active = false)
    (hown : t.ballot.owner = some t.id) (h : t.countPromises = .ok t') :
    Moves before input t t' := by
  have hcarries : Carries before input (t, []) (t', []) := carries_countPromises hnew ha hown h
  exact hcarries.moves

/-- Nobody takes over under a new ballot. -/
theorem ballot_countPromises (ha : t.active = false) (hown : t.ballot.owner = some t.id)
    (h : t.countPromises = .ok t') : t'.ballot = t.ballot := by
  unfold countPromises at h
  split at h
  · obtain ⟨t₁, t₂, -, -, -, hw₁, hw₂, hw₃⟩ := takeOver_eq_ok t.toReplica .elect ha hown h
    rw [hw₃.rest, hw₂.rest, hw₁.rest]
  · cases h; rfl

variable (before input) in
/-- Moves from `t` to `t'`, where the ballot changes before anything is announced. -/
def Announces (t t' : Turn ρ σ) : Prop :=
  ∃ t₁, Moves before input t t₁ ∧ (∀ m, .broadcast (.commit m) ∉ t₁.effects) ∧
    Moves before input t₁ t' ∧ t'.ballot = t₁.ballot

/-- Moves that keep the ballot. -/
theorem announces_of_ballot (hnone : t.effects = []) (h : Moves before input t t')
    (hb : t'.ballot = t.ballot) : Announces before input t t' :=
  ⟨t, .refl, by simp [hnone], h, hb⟩

/-- Moves that announce nothing. -/
theorem announces_of_quiet (h : Moves before input t t')
    (hquiet : ∀ m, .broadcast (.commit m) ∉ t'.effects) : Announces before input t t' :=
  ⟨t', h, hquiet, .refl, rfl⟩

theorem announces_elect (hi : ∀ m, input ≠ .message m) (hlog : t.log = before.log)
    (hb : t.ballot = before.ballot) (hactive : t.active = before.active) (hnone : t.effects = [])
    (h : t.elect = .ok t') : Announces before input t t' := by
  unfold elect at h
  split at h
  · cases h; exact announces_of_ballot hnone .refl rfl
  · rename_i ha
    rw [Bool.not_eq_true] at ha
    obtain ⟨ballot, hn, h⟩ := bind_eq_ok.mp h
    have hmove : Move before input t _ := .elect ballot hlog ha hn hi hb
    refine ⟨_, .single hmove, by simp [hnone], ?_, ?_⟩
    · exact moves_countPromises (hactive ▸ ha) ha (Ballot.owner_of_next hn) h
    · exact ballot_countPromises ha (Ballot.owner_of_next hn) h

theorem announces_onRequest {request : ClientRequest} (hi : input = .request request)
    (hstart : t.toReplica = before) (ho : t.active = true → t.ballot.owner = some t.id)
    (hnone : t.effects = []) (h : t.onRequest request = .ok t') : Announces before input t t' := by
  subst hstart
  unfold onRequest at h
  split at h
  · rename_i ha
    have hw : Works t.toReplica input [request] t t' := works_propose (ho ha) (fun _ => .inl ha) h
    exact announces_of_ballot hnone (hw.carries []).moves (by rw [hw.rest])
  · rename_i ha
    rw [Bool.not_eq_true] at ha
    have hmove : Move t.toReplica input t { t with pending := t.pending ++ [request] } :=
      .enqueue request hi ha
    simp only at h
    split at h
    · cases h; exact announces_of_ballot hnone (.single hmove) rfl
    · have helect : Announces t.toReplica input { t with pending := t.pending ++ [request] } t' :=
        announces_elect (by simp [hi]) rfl rfl rfl hnone h
      obtain ⟨t₁, hmoves, hrest⟩ := helect
      exact ⟨t₁, .head hmove hmoves, hrest⟩

theorem announces_onPromise {m : Promise} (hi : input = .message (.promise m))
    (hstart : t.toReplica = before) (hnone : t.effects = []) (h : t.onPromise m = .ok t') :
    Announces before input t t' := by
  have hcarries : Carries before input (t, []) (t', []) := carries_onPromise hi hstart h
  have hmoves := hcarries.moves
  cases onPromise_eq_ok h with
  | ignored hn h => exact announces_of_ballot hnone hmoves (by rw [h])
  | superseded log displaced t₁ ha hlt hmerge h₁ h₂ =>
    have hreport : Move before input t _ :=
      .report m log displaced hi ha (Std.le_of_lt hlt) (.inl hlt) hmerge
    have hbackOff : Move before input { t.withLog log displaced with ballot := m.ballot } t₁ :=
      .backOff t₁ (by simpa [withLog, emitAll, ha] using h₁)
        ⟨_, hi, hstart ▸ hlt, .inr ⟨m, rfl⟩⟩
    have hw : Works before input [] t₁ t' := works_executeReady h₂
    refine ⟨t₁, .tail (.single hreport) hbackOff, fun c hc => ?_, (hw.carries []).moves,
      by rw [hw.rest]⟩
    obtain ⟨_, _, effects, rfl, hquiet⟩ := scheduleBackoff_eq_ok h₁
    simp only [withLog, emitAll, hnone, List.nil_append, List.mem_append, List.mem_map,
      reduceCtorEq, and_false, exists_false, false_or] at hc
    exact (hquiet _ hc (.commit c)).1 rfl
  | counted log displaced t₁ ha hm ho hmerge h₁ h₂ =>
    have hw : Works before input [] t₁ t' := works_executeReady h₂
    have hb₁ := ballot_countPromises
      (t := { t.withLog log displaced with promises := t.promises.ack m.sender }) ha ho h₁
    exact announces_of_ballot hnone hmoves (by rw [hw.rest]; exact hb₁)
  | reported log displaced ha hm ho hmerge h =>
    have hw : Works before input [] (t.withLog log displaced) t' := works_executeReady h
    exact announces_of_ballot hnone hmoves (by rw [hw.rest]; rfl)

omit [StateMachine σ] in
/-- To follow a ballot is to announce nothing. -/
theorem quiet_follow {b : Ballot} (hnone : t.effects = []) (h : t.follow b = .ok t') (m : Commit) :
    .broadcast (.commit m) ∉ t'.effects := by
  obtain ⟨_, _, _, effects, rfl, hquiet⟩ := follow_eq_ok h
  simp only [hnone, List.nil_append]
  exact fun hm => (hquiet _ hm (.commit m)).1 rfl

theorem announces_onMessage {m : Message} (hi : input = .message m)
    (hm : ∀ a, m ≠ .accepted a) (hstart : t.toReplica = before) (hnone : t.effects = [])
    (h : t.onMessage m = .ok t') : Announces before input t t' := by
  cases m with
  | prepare m =>
    have hcarries : Carries before input (t, []) (t', []) := carries_onPrepare hi hstart h
    refine announces_of_quiet hcarries.moves fun c => ?_
    change t.onPrepare m = .ok t' at h
    unfold onPrepare at h
    split at h
    · cases h; simp [hnone]
    · obtain ⟨t₁, h₁, h₂⟩ := bind_eq_ok.mp h
      cases h₂
      simp [quiet_follow hnone h₁ c]
  | promise m => exact announces_onPromise hi hstart hnone h
  | accept m =>
    have hcarries : Carries before input (t, []) (t', []) := carries_onAccept hi hstart h
    refine announces_of_quiet hcarries.moves fun c => ?_
    cases onAccept_eq_ok h with
    | ignored h => simp [h, hnone]
    | refused proposer ho hlt h => simp [h, hnone]
    | voted proposer t₁ log displaced ho hle h₁ hvote h =>
      simp [h, quiet_follow hnone h₁ c]
  | accepted m => exact absurd rfl (hm m)
  | commit m =>
    have hcarries : Carries before input (t, []) (t', []) := carries_onCommit hi h
    refine announces_of_ballot hnone hcarries.moves ?_
    change t.onCommit m = .ok t' at h
    unfold onCommit at h
    split at h
    · cases h; rfl
    · obtain ⟨⟨log, displaced⟩, hlearn, h⟩ := bind_eq_ok.mp h
      have hw : Works before input [] (t.withLog log displaced.toList) t' := works_executeReady h
      rw [hw.rest]
      rfl

end Turn

/-- **A step announces under the ballot with which it ends.** -/
theorem announces_of_step {r r' : Replica ρ σ} {now : Duration} {out : List Effect} (ht : Tidy r)
    (hi : ∀ a, input ≠ .message (.accepted a)) (h : r.step now input = .ok (r', out)) :
    ∃ t : Turn ρ σ, Turn.Announces r input { r with now, effects := [] } t ∧ t.toReplica = r' ∧
      t.effects = out := by
  obtain ⟨t, ht', heq⟩ := map_eq_ok.mp h
  cases heq
  refine ⟨t, ?_, rfl, rfl⟩
  cases input with
  | request request => exact Turn.announces_onRequest rfl rfl (fun ha => (ht.lead ha).1) rfl ht'
  | elect => exact Turn.announces_elect (by simp) rfl rfl rfl rfl ht'
  | backoffElapsed =>
    obtain ⟨t₁, h₁, rfl⟩ := map_eq_ok.mp ht'
    have helect : Turn.Announces r .backoffElapsed { r with now, effects := [] } t₁ :=
      Turn.announces_elect (by simp) rfl rfl rfl rfl h₁
    obtain ⟨t₂, hmoves, hquiet, hrest, hb⟩ := helect
    exact ⟨t₂, hmoves, hquiet, .tail hrest (.fired rfl), hb⟩
  | message m =>
    exact Turn.announces_onMessage rfl (fun a ha => hi a (congrArg Input.message ha)) rfl rfl ht'

end PaxosLog
