import PaxosLog.Proofs.Log.Covers
import PaxosLog.Proofs.Promises
import PaxosLog.Proofs.Replica.Duty

/-!
# Messages that a replica has taken in

A message that a replica took once leaves something behind: the ballot that it made the replica
follow, the votes and choices that it reported, the acknowledgement that it was. `Replica.Absorbed`
says what, for each kind of message, and only asks for what a message can still change under the
ballot that the replica holds.

* `absorbed_of_step`: whoever takes a message (`Replica.Takes`) has absorbed it.
* `Replica.Absorbed.moves`: an absorbed message stays absorbed, whatever is taken in afterwards.
* **`step_of_absorbed`**: an absorbed message changes nothing and is answered at most
  (`Message.Echoes`), if the replica has executed what it can and has left nothing undone.
-/

namespace PaxosLog

/-- The effects are nothing but an answer to the owner of the message's ballot. -/
def Message.Echoes (m : Message) (effects : List Effect) : Prop :=
  effects = [] ∨ ∃ owner, m.ballot.owner = some owner ∧
    ((∃ p, effects = [.send owner (.promise p)]) ∨ ∃ a, effects = [.send owner (.accepted a)])

variable {ρ σ : Type}

namespace Replica

/-- The replica does not ignore the message. A promise counts for nothing when the replica leads or
holds a higher ballot, and an acknowledgement counts if it is one for a proposal under the current
ballot that is not chosen yet. -/
def Takes (r : Replica ρ σ) : Message → Prop
  | .promise m => ¬ (r.active = true ∨ m.ballot < r.ballot)
  | .accepted m => m.ballot = r.ballot ∧ r.ballot.owner = some r.id ∧
      ∃ e, r.log.Open m.slot e ∧ e.ballot = m.ballot
  | _ => True

/-- What the replica keeps of a message that it took. -/
def Absorbed (r : Replica ρ σ) : Message → Prop
  | .prepare m => m.ballot.owner = none ∨ m.ballot ≤ r.ballot
  | .promise m => m.ballot ≤ r.ballot ∧ (m.ballot = r.ballot → r.active = true ∨
      (∀ s p, s ≠ Slot.sentinel → m.log[s]? = some p → r.log.Covers s p) ∧
        (r.ballot.owner = some r.id → m.sender ∈ r.promises.voters))
  | .accept m => m.ballot.owner = none ∨ m.ballot ≤ r.ballot ∧
      (m.ballot = r.ballot → r.log.Covers m.slot ⟨m.command, m.ballot, false⟩)
  | .accepted m => m.ballot ≤ r.ballot ∧
      (m.ballot = r.ballot → r.active = true ∧ r.log.Credits m.slot m.ballot m.sender)
  | .commit m => m.slot = Slot.sentinel ∨ r.log.Covers m.slot ⟨m.command, m.ballot, true⟩

end Replica

variable [RandomSource ρ] [StateMachine σ] {before : Replica ρ σ} {input : Input} {t t' : Turn ρ σ}

/-! ## What is absorbed stays absorbed -/

namespace Move

/-- What a log covers it goes on to cover. A vote that a new leader proposes again goes to the
ballot of the leader, so votes under higher ballots must not be what is covered. -/
theorem covers (h : Move before input t t') {s : Slot} {p : PromisedEntry}
    (hle : t.active = true → p.committed = false → p.ballot ≤ t.ballot)
    (hcov : t.log.Covers s p) : t'.log.Covers s p := by
  rcases h.growth with hg | ⟨u, e, ha, -, ho, hlog⟩
  · exact hcov.grows hg
  · obtain ⟨e₀, he₀, hold⟩ := hcov
    unfold Log.Covers
    rw [hlog, Log.get?_set]
    by_cases hus : u = s
    · rw [← hus, ho.entry, Option.some_inj] at he₀
      subst he₀
      refine ⟨_, if_pos hus, ?_⟩
      rcases hold with hc | ⟨hp, -⟩
      · exact absurd (hc.symm.trans ho.vote) (by simp)
      · exact .inr ⟨hp, hle ha hp⟩
    · exact ⟨e₀, (if_neg hus).trans he₀, hold⟩

/-- A ballot that was not higher than that of the replica, and is the same now, was the same. -/
theorem ballot_stays (h : Move before input t t') {b : Ballot} (hle : b ≤ t.ballot)
    (hb : b = t'.ballot) : b = t.ballot ∧ t'.ballot = t.ballot := by
  have heq : b = t.ballot := Std.le_antisymm hle (hb ▸ h.ballot_le)
  exact ⟨heq, hb.symm.trans heq⟩

end Move

namespace Replica.Absorbed

variable {m : Message}

/-- A move of a replica that led before the step, or holds a higher ballot than that of an
acknowledgement. -/
theorem move (h : Move before input t t')
    (hlead : ∀ a, m = .accepted a → before.active = true ∨ m.ballot < t.ballot)
    (hm : t.toReplica.Absorbed m) : t'.toReplica.Absorbed m := by
  cases m with
  | prepare m => exact hm.imp_right fun hle => Std.le_trans hle h.ballot_le
  | promise m =>
    obtain ⟨hle, hsame⟩ := hm
    refine ⟨Std.le_trans hle h.ballot_le, fun hb => ?_⟩
    obtain ⟨hbt, hstay⟩ := h.ballot_stays hle hb
    by_cases ha : t.active = true
    · exact .inl (h.active_kept ha hstay)
    · obtain ⟨hcov, hcounted⟩ := (hsame hbt).resolve_left ha
      refine .inr ⟨fun s p hs hp => h.covers (fun hact => absurd hact ha) (hcov s p hs hp),
        fun ho => ?_⟩
      rw [hstay, h.id_eq] at ho
      rcases h.promises_cases with ⟨hp, -⟩ | ⟨-, -, -, hlt, -⟩ | ⟨m', -, hp, -⟩
      · rw [hp]; exact hcounted ho
      · rw [hstay] at hlt
        exact absurd hlt Std.lt_irrefl
      · rw [hp]
        exact Quorum.mem_ack.mpr (.inl (hcounted ho))
  | accept m =>
    refine hm.imp_right fun ⟨hle, hsame⟩ => ⟨Std.le_trans hle h.ballot_le, fun hb => ?_⟩
    exact h.covers (fun _ _ => hle) (hsame (h.ballot_stays hle hb).1)
  | accepted m =>
    obtain ⟨hle, hsame⟩ := hm
    refine ⟨Std.le_trans hle h.ballot_le, fun hb => ?_⟩
    obtain ⟨hbt, hstay⟩ := h.ballot_stays hle hb
    obtain ⟨ha, hcredits⟩ := hsame hbt
    rcases hlead m rfl with hact | hlt
    · exact ⟨h.active_kept ha hstay, h.credits hact hcredits⟩
    · exact absurd (hbt ▸ hlt) Std.lt_irrefl
  | commit m => exact hm.imp_right (h.covers fun _ hc => nomatch hc)

theorem moves (h : Moves before input t t')
    (hlead : ∀ a, m = .accepted a → before.active = true ∨ m.ballot < t.ballot)
    (hm : t.toReplica.Absorbed m) : t'.toReplica.Absorbed m := by
  suffices hall : t.ballot ≤ t'.ballot ∧ t'.toReplica.Absorbed m from hall.2
  induction h with
  | refl => exact ⟨Std.le_refl _, hm⟩
  | tail _ hmove ih =>
    obtain ⟨hle, hm'⟩ := ih
    exact ⟨Std.le_trans hle hmove.ballot_le, hm'.move hmove fun a ha =>
      (hlead a ha).imp_right fun hlt => Std.lt_of_lt_of_le hlt hle⟩

/-- **A step keeps absorbed messages absorbed.** -/
theorem step {r r' : Replica ρ σ} {now : Duration} {effects : List Effect} (hm : r.Absorbed m)
    (ht : Tidy r) (h : r.step now input = .ok (r', effects)) : r'.Absorbed m := by
  obtain ⟨t, hmoves, rfl, -⟩ := moves_of_step (fun ha => (ht.lead ha).1) h
  refine moves (m := m) hmoves (fun a ha => ?_) hm
  subst ha
  obtain ⟨hle, hsame⟩ := hm
  by_cases hb : a.ballot = r.ballot
  · exact .inl (hsame hb).1
  · exact .inr (Std.not_le.mp fun hge => hb (Std.le_antisymm hle hge))

end Replica.Absorbed

/-! ## What is taken is absorbed -/

namespace Turn

omit [StateMachine σ] in
theorem absorbed_onAccept {m : Accept} (h : t.onAccept m = .ok t') :
    t'.toReplica.Absorbed (.accept m) := by
  cases onAccept_eq_ok h with
  | ignored h ho => exact .inl ho
  | refused proposer ho hlt h =>
    subst h
    exact .inr ⟨Std.le_of_lt hlt, fun hb => absurd (hb ▸ hlt) Std.lt_irrefl⟩
  | voted proposer t₁ log displaced ho hle h₁ hvote h =>
    have hb := le_ballot_of_follow h₁
    subst h
    exact .inr ⟨hb, fun _ => (Log.joined_vote hvote).covers⟩

theorem absorbed_onCommit {m : Commit} (h : t.onCommit m = .ok t') :
    t'.toReplica.Absorbed (.commit m) := by
  unfold onCommit at h
  split at h
  · rename_i h0; exact .inl h0
  · obtain ⟨⟨log, displaced⟩, hlearn, h⟩ := bind_eq_ok.mp h
    have hw : Works t.toReplica .elect [] _ t' := works_executeReady h
    exact Replica.Absorbed.moves (m := .commit m) (hw.carries []).moves (by simp)
      (.inr (Log.joined_learn hlearn).covers)

/-- A promise that is not ignored. The ballot that it brings, if it brings one, is foreign. -/
theorem absorbed_onPromise {m : Promise} (hn : ¬ (t.active = true ∨ m.ballot < t.ballot))
    (hforeign : t.ballot < m.ballot → m.ballot.owner ≠ some t.id) (h : t.onPromise m = .ok t') :
    t'.toReplica.Absorbed (.promise m) := by
  have hdone : ∀ {t₁ : Turn ρ σ}, t₁.toReplica.Absorbed (.promise m) →
      t₁.executeReady = .ok t' → t'.toReplica.Absorbed (.promise m) := by
    intro t₁ hm h₂
    have hw : Works t.toReplica .elect [] t₁ t' := works_executeReady h₂
    exact Replica.Absorbed.moves (hw.carries []).moves (by simp) hm
  cases onPromise_eq_ok h with
  | ignored hn' h => exact absurd hn' hn
  | superseded log displaced t₁ ha hlt hmerge h₁ h₂ =>
    obtain ⟨_, _, _, rfl, -⟩ := scheduleBackoff_eq_ok h₁
    exact hdone ⟨Std.le_refl _, fun _ => .inr
      ⟨fun s p hs hp => (Log.merged_merge hmerge).covers_reported hs hp,
        fun ho => absurd ho (hforeign hlt)⟩⟩ h₂
  | counted log displaced t₁ ha hm ho hmerge h₁ h₂ =>
    refine hdone ?_ h₂
    have hcarries : Carries t.toReplica .elect
        ({ t.withLog log displaced with promises := t.promises.ack m.sender }, []) (t₁, []) :=
      carries_countPromises ha ha ho h₁
    refine Replica.Absorbed.moves hcarries.moves (by simp) ⟨hm ▸ Std.le_refl _, fun _ => .inr
      ⟨fun s p hs hp => (Log.merged_merge hmerge).covers_reported hs hp, fun _ => ?_⟩⟩
    exact Quorum.mem_ack.mpr (.inr rfl)
  | reported log displaced ha hm ho hmerge h =>
    refine @hdone (t.withLog log displaced) ⟨hm ▸ Std.le_refl _, fun _ => .inr
      ⟨fun s p hs hp => (Log.merged_merge hmerge).covers_reported hs hp, fun hown => ?_⟩⟩ h
    exact absurd hown ho

/-- A vote for a proposal under the current ballot is counted. -/
theorem onAccepted_of_open {m : Accepted} {e : LogEntry}
    (he : t.log.Open m.slot e) (hb : e.ballot = m.ballot) (hm : m.ballot = t.ballot)
    (ho : t.ballot.owner = some t.id) :
    t.onAccepted m =
      ({ t with log := t.log.set m.slot (e.ack m.sender) } : Turn ρ σ).countVotes m.slot := by
  have hle : ¬ t.ballot < t.ballot := Std.lt_irrefl
  have hown : t.ballot.isOwnedBy t.id = true := Ballot.isOwnedBy_iff.mpr ho
  simp [onAccepted, he.entry, he.vote, hb, hm, hle, hown]

theorem absorbed_onAccepted {m : Accepted} {e : LogEntry} (ha : t.active = true)
    (he : t.log.Open m.slot e) (hb : e.ballot = m.ballot) (hm : m.ballot = t.ballot)
    (ho : t.ballot.owner = some t.id) (h : t.onAccepted m = .ok t') :
    t'.toReplica.Absorbed (.accepted m) := by
  rw [onAccepted_of_open he hb hm ho] at h
  have hw : Works t.toReplica .elect [] _ t' := works_counted (hb.trans hm) ho h
  refine Replica.Absorbed.moves (m := .accepted m) (hw.carries []).moves (fun _ _ => .inl ha)
    ⟨hm ▸ Std.le_refl _, fun _ => ⟨ha, e.ack m.sender, ?_, .inr (.inr ⟨hb, ?_⟩)⟩⟩
  · exact (Log.get?_set _ _ _ _).trans (if_pos rfl)
  · exact Quorum.mem_ack.mpr (.inr rfl)

end Turn

/-- **Whoever takes a message has absorbed it**, if nobody else opens ballots in its name, and it
leads when it counts an acknowledgement. -/
theorem absorbed_of_step {r r' : Replica ρ σ} {now : Duration} {effects : List Effect} {m : Message}
    (htakes : r.Takes m)
    (hforeign : ∀ p, m = .promise p → r.ballot < m.ballot → m.ballot.owner ≠ some r.id)
    (hlead : ∀ a, m = .accepted a → r.active = true)
    (h : r.step now (.message m) = .ok (r', effects)) : r'.Absorbed m := by
  obtain ⟨t, ht, heq⟩ := map_eq_ok.mp h
  cases heq
  cases m with
  | prepare m =>
    by_cases ho : m.ballot.owner = none
    · exact .inl ho
    · exact .inr (bound_of_step (m := .prepare m) ho h)
  | promise m =>
    exact Turn.absorbed_onPromise (t := { r with now, effects := [] }) htakes (hforeign m rfl) ht
  | accept m => exact Turn.absorbed_onAccept ht
  | accepted m =>
    obtain ⟨hm, ho, e, he, hb⟩ := htakes
    exact Turn.absorbed_onAccepted (hlead m rfl) he hb hm ho ht
  | commit m => exact Turn.absorbed_onCommit ht

/-! ## What is absorbed changes nothing -/

theorem Log.set_of_get? {log : Log} {s : Slot} {e : LogEntry} (h : log.get? s = some e) :
    log.set s e = log := by
  obtain ⟨entries, cursor, highest⟩ := log
  simp only [Log.set, Log.mk.injEq, and_true]
  refine Std.ExtTreeMap.ext_getElem? fun u => ?_
  rw [Std.ExtTreeMap.getElem?_insert]
  split
  · rename_i hsu
    rw [← Std.LawfulEqCmp.compare_eq_iff_eq.mp hsu]
    exact h.symm
  · rfl

namespace Turn

omit [RandomSource ρ] [StateMachine σ] in
@[simp] theorem emitAll_nil (t : Turn ρ σ) : t.emitAll [] = t := by simp [emitAll]

omit [RandomSource ρ] [StateMachine σ] in
@[simp] theorem withLog_self (t : Turn ρ σ) : t.withLog t.log [] = t := emitAll_nil t

omit [RandomSource ρ] in
theorem executeReady_of_idle (h : t.log.Idle) : t.executeReady = .ok t := by
  unfold executeReady
  cases t.log.span with
  | zero => rfl
  | succ count =>
    unfold executeUpTo
    split
    · rfl
    · rename_i e he
      rw [if_neg (by simp [h e he])]

omit [StateMachine σ] in
theorem follow_of_le {b : Ballot} (h : b ≤ t.ballot) : t.follow b = .ok t :=
  if_neg (Ballot.not_lt.mpr h)

omit [StateMachine σ] in
theorem onPrepare_of_absorbed {m : Prepare} (hm : t.toReplica.Absorbed (.prepare m)) :
    ∃ echo, t.onPrepare m = .ok (t.emitAll echo) ∧ (Message.prepare m).Echoes echo := by
  cases ho : m.ballot.owner with
  | none => exact ⟨[], by simp [onPrepare, ho], .inl rfl⟩
  | some candidate =>
    have hle : m.ballot ≤ t.ballot := hm.resolve_left (by simp [ho])
    simp only [onPrepare, ho]
    rw [follow_of_le hle]
    exact ⟨_, rfl, .inr ⟨candidate, ho, .inl ⟨_, rfl⟩⟩⟩

omit [StateMachine σ] in
theorem onAccept_of_absorbed {m : Accept} (ht : Tidy t.toReplica)
    (hm : t.toReplica.Absorbed (.accept m)) :
    ∃ echo, t.onAccept m = .ok (t.emitAll echo) ∧ (Message.accept m).Echoes echo := by
  cases ho : m.ballot.owner with
  | none => exact ⟨[], by simp [onAccept, ho], .inl rfl⟩
  | some proposer =>
    obtain ⟨hle, hsame⟩ := hm.resolve_left (by simp [ho])
    refine ⟨[.send proposer (.accepted ⟨t.ballot, m.slot, t.id⟩)], ?_,
      .inr ⟨proposer, ho, .inr ⟨_, rfl⟩⟩⟩
    simp only [onAccept, ho]
    by_cases hlt : m.ballot < t.ballot
    · rw [if_pos hlt]
      rfl
    · obtain ⟨e, he, hcov⟩ := hsame (Std.le_antisymm hle (Ballot.not_lt.mp hlt))
      have hvote := Log.vote_of_covers (ht.bounded m.slot e he) ⟨e, he, hcov⟩
      rw [if_neg hlt]
      refine bind_eq_ok.mpr ⟨t, follow_of_le hle, bind_eq_ok.mpr ⟨_, hvote, ?_⟩⟩
      show Except.ok ((t.withLog t.log []).emit _) = _
      rw [withLog_self]
      rfl

omit [RandomSource ρ] in
theorem onCommit_of_absorbed {m : Commit} (ht : Tidy t.toReplica) (hidle : t.log.Idle)
    (hm : t.toReplica.Absorbed (.commit m)) : t.onCommit m = .ok t := by
  unfold onCommit
  split
  · rfl
  · rename_i h0
    obtain ⟨e, he, hcov⟩ := hm.resolve_left h0
    refine bind_eq_ok.mpr ⟨_, Log.learn_of_covers (ht.bounded m.slot e he) ⟨e, he, hcov⟩, ?_⟩
    show (t.withLog t.log []).executeReady = .ok t
    rw [withLog_self, executeReady_of_idle hidle]

/-- A candidate that has counted a promise lacks others, or it would lead. -/
theorem onPromise_of_absorbed {m : Promise} (ht : Tidy t.toReplica) (hidle : t.log.Idle)
    (hd : Dutiful t.toReplica) (hm : t.toReplica.Absorbed (.promise m)) :
    t.onPromise m = .ok t := by
  obtain ⟨hle, hsame⟩ := hm
  unfold onPromise
  by_cases hn : t.active = true ∨ m.ballot < t.ballot
  · rw [if_pos hn]
    rfl
  · obtain ⟨ha, hge⟩ := not_or.mp hn
    have hb : m.ballot = t.ballot := Std.le_antisymm hle (Ballot.not_lt.mp hge)
    obtain ⟨hcov, hcounted⟩ := (hsame hb).resolve_left ha
    have hmerge : t.log.merge m.log = .ok (t.log, []) := by
      refine Log.merge_of_covers fun s p hs hp => ?_
      obtain ⟨e, he, hcovers⟩ := hcov s p hs hp
      exact ⟨ht.bounded s e he, e, he, hcovers⟩
    have hlt : ¬ t.ballot < t.ballot := Std.lt_irrefl
    rw [if_neg hn]
    refine bind_eq_ok.mpr ⟨_, hmerge, ?_⟩
    simp only [withLog_self, hb, if_neg hlt]
    by_cases ho : t.ballot.owner = some t.id
    · have hreached : t.quorums.phase1Reached t.promises ≠ true := fun hq => ha (hd.elected ho hq)
      rw [if_pos (Ballot.isOwnedBy_iff.mpr ho), Quorum.ack_of_mem (hcounted ho)]
      show t.countPromises >>= executeReady = _
      rw [countPromises, if_neg hreached]
      exact executeReady_of_idle hidle
    · rw [if_neg (fun hown => ho (Ballot.isOwnedBy_iff.mp hown))]
      exact executeReady_of_idle hidle

/-- A proposal that a vote was counted for lacks others, or it would be chosen. -/
theorem onAccepted_of_absorbed {m : Accepted} (ht : Tidy t.toReplica) (hd : Dutiful t.toReplica)
    (hm : t.toReplica.Absorbed (.accepted m)) : t.onAccepted m = .ok t := by
  obtain ⟨hle, hsame⟩ := hm
  by_cases hcount : ∃ e, t.log.Open m.slot e ∧ e.ballot = m.ballot ∧ m.ballot = t.ballot
  · obtain ⟨e, he, hb, hbt⟩ := hcount
    obtain ⟨ha, e₀, he₀, hcredits⟩ := hsame hbt
    rw [he.entry, Option.some_inj] at he₀
    subst he₀
    have hvoted : m.sender ∈ e.acks.voters := by
      rcases hcredits with hc | hlt | ⟨-, hmem⟩
      · exact absurd (hc.symm.trans he.vote) (by simp)
      · exact absurd (hb ▸ hlt) Std.lt_irrefl
      · exact hmem
    have hack : e.ack m.sender = e := by rw [LogEntry.ack, Quorum.ack_of_mem hvoted]
    rw [onAccepted_of_open he hb hbt (ht.lead ha).1, hack, Log.set_of_get? he.entry]
    simp [countVotes, he.entry, (hd.awaiting ha m.slot e he).few]
  · unfold onAccepted
    split
    · rfl
    · rename_i e he
      split
      · rfl
      · rename_i hn
        obtain ⟨hc, -⟩ := not_or.mp hn
        rw [if_neg (Ballot.not_lt.mpr hle), if_neg]
        rintro ⟨hbt, hb, -⟩
        exact hcount ⟨e, ⟨he, Bool.eq_false_iff.mpr hc⟩, hb.symm, hbt⟩

end Turn

/-- **An absorbed message changes nothing** and is answered at most. -/
theorem step_of_absorbed {r : Replica ρ σ} {m : Message} (ht : Tidy r) (hidle : r.log.Idle)
    (hd : Dutiful r) (hm : r.Absorbed m) (now : Duration) :
    ∃ echo, r.step now (.message m) = .ok (r, echo) ∧ m.Echoes echo := by
  suffices hturn : ∃ echo, Turn.onMessage { r with now, effects := [] } m =
      .ok (Turn.emitAll { r with now, effects := [] } echo) ∧ m.Echoes echo by
    obtain ⟨echo, h, hecho⟩ := hturn
    refine ⟨echo, ?_, hecho⟩
    simp only [Replica.step, Turn.onInput, h]
    rfl
  have hsilent : ∀ {m : Message}, Turn.onMessage { r with now, effects := [] } m =
      .ok { r with now, effects := [] } → ∃ echo, Turn.onMessage { r with now, effects := [] } m =
        .ok (Turn.emitAll { r with now, effects := [] } echo) ∧ m.Echoes echo :=
    fun h => ⟨[], by rw [h, Turn.emitAll_nil], .inl rfl⟩
  cases m with
  | prepare m => exact Turn.onPrepare_of_absorbed hm
  | promise m => exact hsilent (m := .promise m) (Turn.onPromise_of_absorbed ht hidle hd hm)
  | accept m => exact Turn.onAccept_of_absorbed ht hm
  | accepted m => exact hsilent (m := .accepted m) (Turn.onAccepted_of_absorbed ht hd hm)
  | commit m => exact hsilent (m := .commit m) (Turn.onCommit_of_absorbed ht hidle hm)

end PaxosLog
