import PaxosLog.Proofs.Conservation

/-!
# Followers of one proposer

A replica that hears nothing but what one proposer broadcasts never competes with it: it takes no
request, opens no ballot and holds only those of the proposer, and it does nothing but execute and
answer the proposer.

**`Follower.of_moves`**: the moves of a step keep it so.
-/

namespace PaxosLog

open scoped List

/-- What `leader` broadcasts under its ballots, and announcements. -/
inductive Input.From (leader : ReplicaId) : Input → Prop
  | prepare (m : Prepare) (ho : m.ballot.owner = some leader) : From leader (.message (.prepare m))
  | accept (m : Accept) (ho : m.ballot.owner = some leader) : From leader (.message (.accept m))
  | commit (m : Commit) : From leader (.message (.commit m))

theorem Input.From.owner {leader : ReplicaId} {input : Input} (h : input.From leader) {m : Message}
    (hi : input = .message m) (hm : ∀ c, m ≠ .commit c) : m.ballot.owner = some leader := by
  cases h with
  | prepare m' ho => cases hi; exact ho
  | accept m' ho => cases hi; exact ho
  | commit m' => cases hi; exact absurd rfl (hm m')

theorem Input.From.exists_message {leader : ReplicaId} {input : Input} (h : input.From leader) :
    ∃ m, input = .message m := by
  cases h <;> exact ⟨_, rfl⟩

/-- The effect is an execution, or is sent to `leader`. -/
def Effect.Reports (leader : ReplicaId) : Effect → Prop
  | .send receiver _ => receiver = leader
  | .execute _ _ _ => True
  | _ => False

variable {ρ σ : Type}

/-- A replica that has never done anything but follow `leader`. -/
structure Follower (leader : ReplicaId) (r : Replica ρ σ) : Prop where
  inactive : r.active = false
  pending : r.pending = []
  requests : r.log.requests = []
  ballot : ∀ q, r.ballot.owner = some q → q = leader

namespace Follower

variable {leader : ReplicaId}

theorem start {id : ReplicaId} {n : Nat} {config : Config} {source : ρ} {machine : σ}
    {r : Replica ρ σ} (h : Replica.start id n config source machine = .ok r) :
    Follower leader r := by
  obtain ⟨quorums, rfl⟩ := Replica.start_eq_ok h
  exact ⟨rfl, rfl, rfl, by rintro q ⟨⟩⟩

theorem request_eq_none {r : Replica ρ σ} (h : Follower leader r) {s : Slot} {e : LogEntry}
    (he : r.log.get? s = some e) : e.request = none := by
  cases hr : e.request with
  | none => rfl
  | some q =>
    have hmem := Log.mem_requests he hr
    rw [h.requests] at hmem
    cases hmem

/-- A follower has nothing to do of its own. -/
theorem not_outstanding {r : Replica ρ σ} (h : Follower leader r) :
    r.hasOutstandingWork = false := by
  rw [← Bool.not_eq_true, hasOutstandingWork_iff]
  rintro (hp | hlog)
  · exact hp h.pending
  · obtain ⟨s, e, he, -, -, hr⟩ := Log.hasOwnedUncommitted_iff.mp hlog
    rw [h.request_eq_none he] at hr
    cases hr

/-- A follower asks for no delay. -/
theorem not_superseded {before : Replica ρ σ} {input : Input} {t : Turn ρ σ}
    (hf : Follower leader t.toReplica) (hin : input.From leader) :
    ¬ Superseded before input t := by
  rintro ⟨m, hi, -, hwork | ⟨promise, rfl⟩⟩
  · exact absurd (hf.not_outstanding.symm.trans hwork) (by simp)
  · subst hi
    cases hin

variable [RandomSource ρ] [StateMachine σ]
  {before : Replica ρ σ} {input : Input} {t t' : Turn ρ σ}

omit [RandomSource ρ] in
/-- Executing an entry answers nobody. -/
theorem reports_executeEntry (hf : Follower leader t.toReplica) {e : LogEntry}
    (he : t.log.get? t.log.executeCursor = some e) (h : t.executeEntry e = .ok t') :
    ∀ x ∈ t'.effects, x ∈ t.effects ∨ x.Reports leader := by
  have hnone := hf.request_eq_none he
  obtain ⟨cursor, machine, out, -, rfl, hcase⟩ := Turn.executeEntry_cases h
  intro x hx
  refine (List.mem_append.mp hx).imp_right fun hx => ?_
  rcases hcase with ⟨-, -, rfl⟩ | ⟨c, -, -, rfl⟩
  · rw [hnone] at hx
    cases hx
  · rw [hnone] at hx
    rw [List.mem_singleton.mp hx]
    trivial

omit [RandomSource ρ] [StateMachine σ] in
/-- What a follower votes for or learns takes no request from it. -/
theorem displaced_eq_nil (hf : Follower leader t.toReplica) {log : Log}
    {displaced : Option ClientRequest} (h : log.requests ++ displaced.toList ~ t.log.requests) :
    log.requests = [] ∧ displaced = none := by
  rw [hf.requests, List.perm_nil, List.append_eq_nil_iff, Option.toList_eq_nil_iff] at h
  exact h

/-- **Every move keeps a follower**, and it has no other effects. -/
theorem move (hid : t.id ≠ leader) (hin : input.From leader) (h : Move before input t t')
    (hf : Follower leader t.toReplica) (hx : ∀ x ∈ t.effects, x.Reports leader) :
    Follower leader t'.toReplica ∧ ∀ x ∈ t'.effects, x.Reports leader := by
  have hown : t.ballot.owner ≠ some t.id := fun ho => hid (hf.ballot _ ho)
  have hlead : t.active ≠ true := by simp [hf.inactive]
  have hsend : ∀ {effects : List Effect} {m : Message}, (∀ x ∈ effects, x.Reports leader) →
      ∀ x ∈ effects ++ [.send leader m], x.Reports leader := by
    intro effects m heffects x hx
    rcases List.mem_append.mp hx with hx | hx
    · exact heffects x hx
    · rw [List.mem_singleton.mp hx]
      rfl
  cases h with
  | enqueue request hi ha => subst hi; cases hin
  | elect ballot hlog ha hn hi =>
    obtain ⟨m, hm⟩ := hin.exists_message
    exact absurd hm (hi m)
  | lead ha ho hq => exact absurd ho hown
  | dequeue ha => exact absurd ha hlead
  | offer s command request ha hs hc => exact absurd ha hlead
  | offerAgain s e ha hs hc => exact absurd ha hlead
  | choose s e ho hs hc hb hq => exact absurd ho hown
  | execute t' e hs hc h =>
    have hout := hf.reports_executeEntry hs h
    have hrequests := Log.requests_set_of_eq hs
      (e := e.withoutRequest) (hf.request_eq_none hs).symm
    obtain ⟨_, _, _, -, rfl, -⟩ := Turn.executeEntry_eq_ok h
    refine ⟨⟨hf.inactive, hf.pending, ?_, hf.ballot⟩, fun x hx' => (hout x hx').elim (hx x) id⟩
    rw [hf.requests] at hrequests
    exact hrequests.eq_nil
  | follow m hi hm hlt =>
    refine ⟨⟨rfl, hf.pending, hf.requests, fun q hq => ?_⟩, hx⟩
    rw [hin.owner hi hm, Option.some_inj] at hq
    exact hq.symm
  | backOff t' h hwhy => exact absurd hwhy (hf.not_superseded hin)
  | fired hi => subst hi; cases hin
  | answer m candidate hi ho hle =>
    obtain rfl := Option.some_inj.mp ((hin.owner hi (by simp)).symm.trans ho)
    exact ⟨⟨hf.inactive, hf.pending, hf.requests, hf.ballot⟩, hsend hx⟩
  | vote m proposer log displaced hi ho hb h =>
    obtain rfl := Option.some_inj.mp ((hin.owner hi (by simp)).symm.trans ho)
    obtain ⟨hrequests, rfl⟩ := hf.displaced_eq_nil (Log.requests_vote h)
    refine ⟨⟨hf.inactive, hf.pending, hrequests, hf.ballot⟩, ?_⟩
    rw [Turn.emit_effects, Turn.withLog_effects]
    exact hsend (by simpa using hx)
  | refuse m proposer hi hstart ho hlt =>
    obtain rfl := Option.some_inj.mp ((hin.owner hi (by simp)).symm.trans ho)
    exact ⟨⟨hf.inactive, hf.pending, hf.requests, hf.ballot⟩, hsend hx⟩
  | report m log displaced hi ha hle ho h => subst hi; cases hin
  | countPromise m log displaced hi hstart ha hm ho h => subst hi; cases hin
  | countVote m e hi hstart hs hc hb hm ho => exact absurd ho hown
  | learn m log displaced hi h0 h =>
    obtain ⟨hrequests, rfl⟩ := hf.displaced_eq_nil (Log.requests_learn h)
    refine ⟨⟨hf.inactive, hf.pending, hrequests, hf.ballot⟩, ?_⟩
    rw [Turn.withLog_effects]
    simpa using hx

/-- **The moves of a step keep a follower.** -/
theorem of_moves {r : Replica ρ σ} {now : Duration} (hid : r.id ≠ leader)
    (hin : input.From leader) (hf : Follower leader r)
    (h : Moves r input { r with now, effects := [] } t) :
    Follower leader t.toReplica ∧ ∀ x ∈ t.effects, x.Reports leader := by
  suffices hall : t.id = r.id ∧ Follower leader t.toReplica ∧ ∀ x ∈ t.effects, x.Reports leader from
    hall.2
  induction h with
  | refl => exact ⟨rfl, ⟨hf.inactive, hf.pending, hf.requests, hf.ballot⟩, by simp⟩
  | tail _ hmove ih =>
    obtain ⟨hsame, hf, hx⟩ := ih
    exact ⟨hmove.id_eq.trans hsame, hf.move (hsame ▸ hid) hin hmove hx⟩

end Follower

end PaxosLog
