import PaxosLog.Proofs.Execution

/-!
# No request is lost, duplicated or answered wrongly

A request that a replica takes stays with it, in its queue or in an entry of its log, until the
replica hands it back or answers it. `Accounted` says so of the middle of a step, where a request
can also be in hand; it is an equation between numbers of occurrences that every move keeps.

* **`requests_conserved`**: after any inputs the requests submitted are those in the queue, those
  owned from the cursor on, those handed back and those answered, with their multiplicities; and a
  reply names a slot that was chosen for the command of its request, with the result of running it
  there.
-/

namespace PaxosLog

open scoped List

/-- The request that the effect hands back, if it does. -/
@[simp] def Effect.retried? : Effect → Option ClientRequest
  | .retry request => some request
  | _ => none

/-- The request that the effect answers, with the reply, if it does. -/
@[simp] def Effect.answer? : Effect → Option (ClientRequest × CommandReply)
  | .reply request r => some (request, r)
  | _ => none

/-- The requests handed back, in order. -/
def retried (effects : List Effect) : List ClientRequest := effects.filterMap Effect.retried?

/-- The requests answered, in order, with their replies. -/
def answers (effects : List Effect) : List (ClientRequest × CommandReply) :=
  effects.filterMap Effect.answer?

/-- The requests answered, in order. -/
def answered (effects : List Effect) : List ClientRequest := (answers effects).map Prod.fst

/-- The requests that entries own from the cursor on. -/
def Log.waiting (log : Log) : List ClientRequest :=
  log.entries.toList.filterMap fun (s, e) => if log.executeCursor ≤ s then e.request else none

/-- Below the cursor nothing is owned. -/
theorem Tidy.waiting_eq {ρ σ : Type} {r : Replica ρ σ} (h : Tidy r) :
    r.log.waiting = r.log.requests := by
  refine List.filterMap_congr fun p hp => ?_
  obtain ⟨s, e⟩ := p
  have he : r.log.get? s = some e := Std.ExtTreeMap.mem_toList_iff_getElem?_eq_some.mp hp
  by_cases hs : r.log.executeCursor ≤ s
  · simp [hs]
  · simp [hs, h.spent s e (Std.not_le.mp hs) he]

@[simp] theorem retried_nil : retried [] = [] := rfl

@[simp] theorem answers_nil : answers [] = [] := rfl

@[simp] theorem retried_cons (x : Effect) (xs : List Effect) :
    retried (x :: xs) = x.retried?.toList ++ retried xs := by
  unfold retried
  rw [List.filterMap_cons]
  cases x.retried? <;> rfl

@[simp] theorem answers_cons (x : Effect) (xs : List Effect) :
    answers (x :: xs) = x.answer?.toList ++ answers xs := by
  unfold answers
  rw [List.filterMap_cons]
  cases x.answer? <;> rfl

@[simp] theorem retried_append (xs ys : List Effect) :
    retried (xs ++ ys) = retried xs ++ retried ys := List.filterMap_append

@[simp] theorem answers_append (xs ys : List Effect) :
    answers (xs ++ ys) = answers xs ++ answers ys := List.filterMap_append

@[simp] theorem answered_append (xs ys : List Effect) :
    answered (xs ++ ys) = answered xs ++ answered ys := by simp [answered]

@[simp] theorem retried_map_retry (requests : List ClientRequest) :
    retried (requests.map .retry) = requests := by
  induction requests with
  | nil => rfl
  | cons request requests ih => simp [ih]

@[simp] theorem answers_map_retry (requests : List ClientRequest) :
    answers (requests.map .retry) = [] := by
  induction requests with
  | nil => rfl
  | cons request requests ih => simp [ih]

/-- Outcomes apart, nothing is answered. -/
theorem answers_of_not_isOutcome {xs : List Effect} (h : ∀ x ∈ xs, ¬ x.IsOutcome) :
    answers xs = [] := by
  refine List.filterMap_eq_nil_iff.mpr fun x hx => ?_
  cases x with
  | reply q r => exact absurd trivial (h _ hx)
  | _ => rfl

/-- Requests in the queue, the log and the hand, and those that left, make up what was
submitted. -/
def Accounted {ρ σ : Type} (submitted hand : List ClientRequest) (effects : List Effect)
    (r : Replica ρ σ) : Prop :=
  ∀ q, submitted.count q =
    r.pending.count q + r.log.requests.count q + hand.count q + (retried effects).count q +
      (answered effects).count q

section Moves

variable {ρ σ : Type} [RandomSource ρ] [StateMachine σ]
  {before : Replica ρ σ} {input : Input} {t t' : Turn ρ σ}

omit [RandomSource ρ] in
/-- Executing an entry hands its request out, as a retry or with a reply. -/
theorem Turn.outflow_executeEntry {e : LogEntry} (h : t.executeEntry e = .ok t') :
    ∃ out, t'.effects = t.effects ++ out ∧ retried out ++ answered out = e.request.toList := by
  obtain ⟨cursor, machine, out, -, rfl, hcase⟩ := executeEntry_cases h
  refine ⟨out, rfl, ?_⟩
  rcases hcase with ⟨-, -, rfl⟩ | ⟨c, -, -, rfl⟩
  · simp [answered]
  · cases e.request <;> rfl

omit [StateMachine σ] in
theorem Turn.outflow_scheduleBackoff (h : t.scheduleBackoff = .ok t') :
    ∃ out, t'.effects = t.effects ++ out ∧ retried out = [] ∧ answered out = [] := by
  rcases scheduleBackoff_cases h with ⟨-, rfl⟩ | ⟨-, _, _, rfl⟩
  · exact ⟨[], by simp, rfl, rfl⟩
  · refine ⟨_, rfl, ?_, ?_⟩
    · refine List.filterMap_eq_nil_iff.mpr fun x hx => ?_
      rcases List.mem_append.mp hx with hx | hx
      · obtain ⟨d, -, rfl⟩ := List.mem_map.mp hx; rfl
      · rw [List.mem_singleton.mp hx]; rfl
    · obtain ⟨more, heff, hquiet⟩ := not_isOutcome_of_scheduleBackoff h
      rw [← List.append_cancel_left heff.symm, answered, answers_of_not_isOutcome hquiet]
      rfl

/-- **What leaves the log** in a move that takes no request up is handed back or answered. -/
theorem Move.outflow (h : Move before input t t') (hstill : t.Still t') :
    ∃ out, t'.effects = t.effects ++ out ∧
      t'.log.requests ++ (retried out ++ answered out) ~ t.log.requests := by
  cases h with
  | offer s command request ha hs hc =>
    refine ⟨_, rfl, ?_⟩
    -- what is offered with a request takes it up, so this is the no-op of a gap
    have hnone : request = none :=
      hstill.log s (.proposal t.ballot command request t.id t.now) hs (by simp [Turn.emit])
    subst hnone
    simpa [Turn.emit, answered, LogEntry.proposal] using
      Log.requests_set_of_none ((Log.get?_observe t.log s s).trans hs)
        (.proposal t.ballot command none t.id t.now)
  | offerAgain s e ha hs hc =>
    refine ⟨_, rfl, ?_⟩
    simpa [Turn.emit, answered] using
      Log.requests_set_of_eq hs (e := e.reopened t.ballot t.id t.now) rfl
  | choose s e ho hs hc hb hq =>
    refine ⟨_, rfl, ?_⟩
    simpa [Turn.emit, answered] using
      Log.requests_set_of_eq hs (e := e.commit) rfl
  | execute t' e hs hc h =>
    obtain ⟨out, heff, hout⟩ := Turn.outflow_executeEntry h
    refine ⟨out, heff, ?_⟩
    obtain ⟨_, _, _, -, rfl, -⟩ := Turn.executeEntry_eq_ok h
    have hset := Log.requests_set t.log t.log.executeCursor e.withoutRequest
    rw [Log.requestAt, hs, Option.bind_some] at hset
    rw [hout]
    exact List.perm_append_comm.trans hset
  | backOff t' h =>
    obtain ⟨out, heff, hret, hans⟩ := Turn.outflow_scheduleBackoff h
    exact ⟨out, heff, by rw [hret, hans, (backOff_same h).2.2.1]; simp⟩
  | vote m proposer log displaced hi ho hb h =>
    refine ⟨_, List.append_assoc _ _ _, ?_⟩
    simpa [answered] using Log.requests_vote h
  | report m log displaced hi ha hle ho h =>
    exact ⟨_, rfl, by simpa [answered] using Log.requests_merge h⟩
  | countPromise m log displaced hi hstart ha hm ho h =>
    exact ⟨_, rfl, by simpa [answered] using Log.requests_merge h⟩
  | countVote m e hi hstart hs hc hb hm ho =>
    refine ⟨[], by simp, ?_⟩
    simpa [answered] using Log.requests_set_of_eq hs (e := e.ack m.sender) rfl
  | learn m log displaced hi h0 h =>
    exact ⟨_, rfl, by simpa [answered] using Log.requests_learn h⟩
  | elect ballot hlog ha hn => exact ⟨_, rfl, by simp [Turn.emit, answered]⟩
  | answer m candidate hi ho hle => exact ⟨_, rfl, by simp [Turn.emit, answered]⟩
  | refuse m proposer hi hstart ho hlt =>
    exact ⟨_, rfl, by simp [Turn.emit, answered]⟩
  | _ => exact ⟨[], by simp, by simp [answered]⟩

/-- **Every move keeps account** of the requests. -/
theorem Accounted.carry {submitted hand hand' : List ClientRequest} {prior : List Effect}
    (h : Carry before input (t, hand) (t', hand'))
    (hacc : Accounted submitted hand (prior ++ t.effects) t.toReplica) :
    Accounted submitted hand' (prior ++ t'.effects) t'.toReplica := by
  intro q
  have hq := hacc q
  cases h with
  | enqueue t request hand hi ha =>
    simp only [List.count_append, List.count_cons, List.count_nil] at hq ⊢
    omega
  | dequeue t hand ha =>
    simp only [List.count_append, List.count_nil] at hq ⊢
    omega
  | offer t s request hand ha hs =>
    have hset := Log.requests_set_of_none ((Log.get?_observe t.log s s).trans hs)
      (.proposal t.ballot (.client request.command) (some request) t.id t.now)
    have hcount := hset.count_eq q
    simp only [LogEntry.proposal, Option.toList_some, List.count_append, List.count_cons,
      List.count_nil, Log.requests_observe] at hcount hq ⊢
    simp only [Turn.emit, retried_append, answered_append, List.count_append] at hq ⊢
    simp only [answered, retried_cons, answers_cons, retried_nil, answers_nil, Effect.retried?,
      Effect.answer?, Option.toList_none, List.append_nil, List.map_nil, List.count_nil] at hq ⊢
    omega
  | other t t' hand h hstill =>
    obtain ⟨out, heff, hflow⟩ := h.outflow hstill
    have hcount := hflow.count_eq q
    rw [heff, hstill.pending]
    simp only [List.count_append, retried_append, answered_append] at hq hcount ⊢
    omega

omit [RandomSource ρ] in
/-- What executing an entry answers: the request of the entry, with the execution. -/
theorem Turn.answers_executeEntry {e : LogEntry} (h : t.executeEntry e = .ok t') :
    ∃ out, t'.effects = t.effects ++ out ∧
      (answers out = [] ∨ ∃ q c v, e.request = some q ∧ e.command = .client c ∧
        answers out = [(q, ⟨t.log.executeCursor, c, v⟩)] ∧
        executions out = [⟨t.log.executeCursor, c, v⟩]) := by
  obtain ⟨cursor, machine, out, -, rfl, hcase⟩ := executeEntry_cases h
  refine ⟨out, rfl, ?_⟩
  rcases hcase with ⟨-, -, rfl⟩ | ⟨c, hclient, -, rfl⟩
  · exact .inl (answers_map_retry _)
  · cases hq : e.request with
    | none => exact .inl rfl
    | some q => exact .inr ⟨q, c, _, rfl, hclient, rfl, rfl⟩

/-- Every reply is about a slot that was run, where the command of the request was chosen, and no
slot is answered from twice. -/
structure Answered (effects : List Effect) (r : Replica ρ σ) : Prop where
  sound : ∀ q reply, (q, reply) ∈ answers effects → reply.command = q.command ∧
    ⟨reply.slot, reply.command, reply.value⟩ ∈ executions effects ∧
    ∃ e, r.log.get? reply.slot = some e ∧ e.isCommitted = true ∧ e.command = .client q.command
  once : (answers effects).map (fun a => a.2.slot) <+ (executions effects).map Execution.slot

omit [RandomSource ρ] [StateMachine σ] in
theorem Answered.of_none {effects : List Effect} {r : Replica ρ σ} (h : answers effects = []) :
    Answered effects r := by
  refine ⟨fun q reply hq => ?_, ?_⟩
  · rw [h] at hq; cases hq
  · rw [h]; exact List.nil_sublist _

omit [RandomSource ρ] [StateMachine σ] in
/-- Replies stay sound as long as what is chosen stays chosen. -/
theorem Answered.append {effects out : List Effect} {r r' : Replica ρ σ} (ha : Answered effects r)
    (hkept : ∀ {s e}, r.log.get? s = some e → e.isCommitted = true →
      ∃ e', r'.log.get? s = some e' ∧ e'.isCommitted = true ∧ e'.command = e.command)
    (hout : Answered out r') : Answered (effects ++ out) r' := by
  refine ⟨fun q reply hq => ?_, ?_⟩
  · rw [executions_append]
    rw [answers_append] at hq
    rcases List.mem_append.mp hq with hq | hq
    · obtain ⟨hreply, hrun, e, he, hc, hcmd⟩ := ha.sound q reply hq
      obtain ⟨e', he', hc', hcmd'⟩ := hkept he hc
      exact ⟨hreply, List.mem_append_left _ hrun, e', he', hc', hcmd'.trans hcmd⟩
    · obtain ⟨hreply, hrun, hchosen⟩ := hout.sound q reply hq
      exact ⟨hreply, List.mem_append_right _ hrun, hchosen⟩
  · rw [answers_append, executions_append, List.map_append, List.map_append]
    exact ha.once.append hout.once

/-- **Every move keeps** replies sound. -/
theorem Answered.move {prior : List Effect} (h : Move before input t t') (ht : Tidy t.toReplica)
    (ha : Answered (prior ++ t.effects) t.toReplica) :
    Answered (prior ++ t'.effects) t'.toReplica := by
  rcases h.outcome_cases with ⟨-, -, out, heff, hquiet⟩ | ⟨e, he, hc, hexec⟩
  · rw [heff, ← List.append_assoc]
    exact ha.append h.still_chosen (.of_none (answers_of_not_isOutcome hquiet))
  · obtain ⟨out, heff, hans⟩ := Turn.answers_executeEntry hexec
    rw [heff, ← List.append_assoc]
    refine ha.append h.still_chosen ?_
    rcases hans with hnil | ⟨q, c, v, hreq, hclient, hans, hexe⟩
    · exact .of_none hnil
    · obtain ⟨e', he', hc', hcmd'⟩ := h.still_chosen he hc
      refine ⟨fun q' reply hq => ?_, by rw [hans, hexe]; exact .refl _⟩
      rw [hans, List.mem_singleton] at hq
      cases hq
      -- an entry owns a request only for its own command, so `c` is what `q` asked for
      have hown := ht.owning _ e q he hreq
      rw [hclient] at hown
      cases hown
      exact ⟨rfl, hexe ▸ List.mem_singleton_self _, e', he', hc', hcmd'.trans hclient⟩

variable {fresh r : Replica ρ σ} {inputs : List Input} {effects : List Effect}

theorem Accounted.of_run {id : ReplicaId} {n : Nat} {config : Config} {source : ρ} {machine : σ}
    (hstart : Replica.start id n config source machine = .ok fresh)
    (h : fresh.Run inputs r effects) :
    Accounted (inputs.flatMap Input.requests) [] effects r := by
  refine h.carried (P := Accounted) (Tidy.start hstart) ?_
    (fun submitted effects r input hacc q => ?_)
    fun _ _ _ _ _ _ _ _ _ hcarry hacc => hacc.carry hcarry
  · obtain ⟨quorums, rfl⟩ := Replica.start_eq_ok hstart
    intro q
    have hempty : Log.empty.requests = [] := rfl
    simp [hempty, answered]
  · have hq := hacc q
    simp only [List.count_append, List.count_nil] at hq ⊢
    omega

theorem Answered.of_run (hf : Tidy fresh) (h : fresh.Run inputs r effects) :
    Answered effects r :=
  h.carried (P := fun _ _ effects r => Answered effects r) hf (.of_none rfl)
    (fun _ _ _ _ ha => ha) fun _ _ _ _ _ _ _ _ ht hcarry ha => ha.move hcarry.move ht

/-- **No request is lost, duplicated or answered wrongly.** Whatever a replica was given, the
requests that it took are those in its queue, those that its log owns from the cursor on, those
that it handed back and those that it answered. None is answered more often than it was submitted.
A reply carries the command of its request, names a slot that is chosen for that command, and its
value is the result of the one execution of that slot. The executions have the results that the
state machine gives when the commands are run one after another. And no further input makes the
replica fail, unless a counter is at its limit or no delay can be made. -/
theorem requests_conserved {id : ReplicaId} {n : Nat} {config : Config} {source : ρ} {machine : σ}
    (hstart : Replica.start id n config source machine = .ok fresh)
    (hrun : fresh.Run inputs r effects) :
    inputs.flatMap Input.requests ~
      r.pending ++ r.log.waiting ++ retried effects ++ answered effects ∧
    (∀ q, (answered effects).count q ≤ (inputs.flatMap Input.requests).count q) ∧
    (∀ q reply, .reply q reply ∈ effects →
      reply.command = q.command ∧
      (∃ e, r.log.get? reply.slot = some e ∧ e.isCommitted = true ∧
        e.command = .client q.command) ∧
      ∀ x, x ∈ executions effects ∧ x.slot = reply.slot ↔
        x = ⟨reply.slot, reply.command, reply.value⟩) ∧
    StateMachine.run ((executions effects).map Execution.command) machine =
      ((executions effects).map Execution.value, r.machine) ∧
    ∀ now input f, r.step now input = .error f →
      r.AtLimit input f := by
  have hf := Tidy.start hstart
  have hx := Executed.of_run hf (.start hstart) hrun
  have hacc := Accounted.of_run hstart hrun
  have hans := Answered.of_run hf hrun
  refine ⟨?_, fun q => ?_, fun q reply hreply => ?_, hx.results,
    fun now input f hs => atLimit_of_step (hrun.tidy hf) hs⟩
  · refine List.perm_iff_count.mpr fun q => ?_
    rw [hacc q, (hrun.tidy hf).waiting_eq]
    simp only [List.count_append, List.count_nil]
    omega
  · rw [hacc q]
    omega
  · have hmem : (q, reply) ∈ answers effects :=
      List.mem_filterMap.mpr ⟨_, hreply, rfl⟩
    obtain ⟨hcmd, hrun, hchosen⟩ := hans.sound q reply hmem
    refine ⟨hcmd, hchosen, fun x => ⟨fun ⟨hxs, hslot⟩ => ?_, ?_⟩⟩
    · exact List.inj_on_of_nodup_map hx.nodup hxs hrun hslot
    · rintro rfl
      exact ⟨hrun, rfl⟩

/-- Replica 1 is elected by replica 2 and takes four requests. The first is answered, the second
loses its slot to another command and is handed back, the third owns an entry, and the fourth
waits, since replica 2 has a higher ballot by then. -/
theorem requests_conserved_apart : ∃ (r : Replica Script Journal) (effects : List Effect),
    r.pending = [⟨3, [68]⟩] ∧ r.log.waiting = [⟨2, [67]⟩] ∧ retried effects = [⟨1, [66]⟩] ∧
    answers effects = [(⟨0, [65]⟩, ⟨1, [65], Decimal.bytes 1⟩)] ∧
    [⟨0, [65]⟩, ⟨1, [66]⟩, ⟨2, [67]⟩, ⟨3, [68]⟩] ~
      r.pending ++ r.log.waiting ++ retried effects ++ answered effects := by
  obtain ⟨r, effects, hrun, hpending, hwaiting, hretried, hanswers⟩ :=
    Replica.Run.exists_of_feed (Network.trio.replica 1)
      [.request ⟨0, [65]⟩, .message (.promise ⟨⟨1, some 1⟩, 2, ∅⟩),
        .message (.accepted ⟨⟨1, some 1⟩, 1, 2⟩), .request ⟨1, [66]⟩, .request ⟨2, [67]⟩,
        .message (.commit ⟨⟨1, some 1⟩, 2, .client [99]⟩),
        .message (.prepare ⟨⟨2, some 2⟩, 1⟩), .request ⟨3, [68]⟩]
      (fun p => p.1.pending = [⟨3, [68]⟩] ∧ p.1.log.waiting = [⟨2, [67]⟩] ∧
        retried p.2 = [⟨1, [66]⟩] ∧
        answers p.2 = [(⟨0, [65]⟩, ⟨1, [65], Decimal.bytes 1⟩)])
      (by decide +kernel)
  have hstart : Replica.start 1 3 .standard (⟨[]⟩ : Script) Journal.empty =
      .ok (Network.trio.replica 1) := rfl
  exact ⟨r, effects, hpending, hwaiting, hretried, hanswers,
    (requests_conserved hstart hrun).1⟩

end Moves

end PaxosLog
