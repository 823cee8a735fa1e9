import PaxosLog.Proofs.Conservation
import PaxosLog.Proofs.Headroom
import PaxosLog.Proofs.Network.Order
import PaxosLog.Proofs.TakingOver

/-!
# A cluster of one

A replica without peers is a quorum by itself. Its first request makes it lead, and every request
is proposed, chosen, executed and answered before its step ends. So between two inputs nothing is
under way, and `Alone` says all there is to say about the replica: it holds the commands submitted
so far, each chosen at its own slot, and its state machine has run them.

`Alone.step` is one input, whatever its route through the replica: a request to a leader, a request
that is queued and starts the election, an election, the end of a delay.

**`single_replica_is_state_machine`**: the same of any number of inputs.
-/

namespace PaxosLog

variable {ρ σ : Type} [StateMachine σ]

/-- A replica without peers that has carried out `commands`, on a state machine that was `machine`
at first. -/
structure Alone (machine : σ) (commands : List Bytes) (r : Replica ρ σ) : Prop where
  phase1 : r.quorums.phase1 = 1
  phase2 : r.quorums.phase2 = 1
  /-- It leads, or has not done anything yet. -/
  lead : r.active = true ∨ r.ballot = .zero ∧ commands = []
  pending : r.pending = []
  calm : r.backoff.inFlight = false
  highest : r.log.highestSlot.toNat = commands.length
  cursor : r.log.executeCursor.toNat = commands.length + 1
  sentinel : r.log.get? Slot.sentinel = some (.chosen .zero .noop)
  held : ∀ s, s ≠ Slot.sentinel →
    (r.log.get? s).map (fun e => (e.command, e.isCommitted, e.request)) =
      commands[s.toNat - 1]?.map fun c => (.client c, true, none)
  machine : r.machine = (StateMachine.run commands machine).2

theorem Alone.bounded {machine : σ} {commands : List Bytes} {r : Replica ρ σ}
    (h : Alone machine commands r) : r.log.Bounded := by
  intro s e he
  rw [UInt64.le_iff_toNat_le, h.highest]
  by_cases hs : s = Slot.sentinel
  · rw [hs]
    exact Nat.zero_le _
  · have hheld := h.held s hs
    rw [he] at hheld
    obtain ⟨c, hc, -⟩ := Option.map_eq_some_iff.mp hheld.symm
    have := (List.getElem?_eq_some_iff.mp hc).1
    omega

/-- The reply to a request that is carried out after `commands`. -/
def replyAfter (machine : σ) (commands : List Bytes) (q : ClientRequest) : CommandReply :=
  ⟨.ofNat (commands.length + 1), q.command,
    (StateMachine.execute q.command (StateMachine.run commands machine).2).1⟩

/-- The replies to requests that are carried out one after another, after `commands`. -/
def repliesAfter (machine : σ) :
    List Bytes → List ClientRequest → List (ClientRequest × CommandReply)
  | _, [] => []
  | commands, q :: requests =>
    (q, replyAfter machine commands q) :: repliesAfter machine (commands ++ [q.command]) requests

/-- The requests among inputs, in order. -/
def submitted (timed : List (Duration × Input)) : List ClientRequest :=
  timed.flatMap fun x => x.2.requests

theorem submitted_cons (x : Duration × Input) (rest : List (Duration × Input)) :
    submitted (x :: rest) = x.2.requests ++ submitted rest := List.flatMap_cons

theorem submitted_append (timed more : List (Duration × Input)) :
    submitted (timed ++ more) = submitted timed ++ submitted more := List.flatMap_append

theorem repliesAfter_append (machine : σ) (commands : List Bytes)
    (requests more : List ClientRequest) :
    repliesAfter machine commands (requests ++ more) = repliesAfter machine commands requests ++
      repliesAfter machine (commands ++ requests.map ClientRequest.command) more := by
  induction requests generalizing commands with
  | nil => simp [repliesAfter]
  | cons q requests ih => simp [repliesAfter, ih]

/-- Nothing is scheduled or handed back. -/
def Calm (effects : List Effect) : Prop :=
  ∀ x ∈ effects, x.isAlarm = false ∧ ∀ request, x ≠ .retry request

namespace Turn

variable {t : Turn ρ σ} {machine : σ} {commands : List Bytes}

/-- The chosen entry at the highest slot is executed, if that is the next one. -/
theorem executeReady_highest {s : Slot} {e : LogEntry} {command : Bytes}
    (hcursor : t.log.executeCursor = s) (hhighest : t.log.highestSlot = s)
    (hroom : s < maxCounter) (he : t.log.get? s = some e) (hc : e.isCommitted = true)
    (hcommand : e.command = .client command) :
    t.executeReady = .ok (Turn.emitAll
      { t with
        log := { t.log.set s e.withoutRequest with executeCursor := s + 1 }
        machine := (StateMachine.execute command t.machine).2 }
      (.execute s command (StateMachine.execute command t.machine).1 :: e.request.toList.map
        (.reply · ⟨s, command, (StateMachine.execute command t.machine).1⟩))) := by
  have hspan : t.log.span = 1 := by rw [Log.span, hcursor, hhighest]; omega
  rw [executeReady, hspan]
  simp only [executeUpTo, hcursor, he, hc, if_true, executeEntry, Slot.next_of_lt hroom, hcommand]
  rfl

/-- Nothing is executed behind the highest slot. -/
theorem executeReady_done (h : Alone machine commands t.toReplica) : t.executeReady = .ok t := by
  have hspan : t.log.span = 0 := by rw [Log.span, h.highest, h.cursor]; omega
  rw [executeReady, hspan]
  rfl

/-- The own vote chooses a proposal, which is executed at once if its slot is the next one. -/
theorem propose_eq (q : ClientRequest) (ha : t.active = true) (hphase : t.quorums.phase2 = 1)
    (hb : t.log.Bounded) (hcursor : t.log.executeCursor = t.log.highestSlot + 1)
    (hroom : t.log.highestSlot.toNat + 1 < maxCounter.toNat) {s : Slot}
    (hs : s = t.log.highestSlot + 1) :
    ∃ log, t.propose q = .ok (Turn.emitAll
        { t with log, machine := (StateMachine.execute q.command t.machine).2 }
        [.broadcast (.accept ⟨t.ballot, s, .client q.command⟩),
          .broadcast (.commit ⟨t.ballot, s, .client q.command⟩),
          .execute s q.command (StateMachine.execute q.command t.machine).1,
          .reply q ⟨s, q.command, (StateMachine.execute q.command t.machine).1⟩]) ∧
      log.executeCursor = s + 1 ∧ log.highestSlot = s ∧
      ∀ u, log.get? u = if s = u then
        some (LogEntry.proposal t.ballot (.client q.command) none t.id t.now).commit
        else t.log.get? u := by
  have hlt : t.log.highestSlot < maxCounter := by rw [UInt64.lt_iff_toNat_lt]; omega
  have hnext := Slot.toNat_succ hlt
  rw [← hs] at hnext hcursor
  have hbelow : t.log.highestSlot < s := by rw [UInt64.lt_iff_toNat_lt]; omega
  have hnone : t.log.get? s = none := by
    by_contra hsome
    obtain ⟨e, he⟩ := Option.ne_none_iff_exists'.mp hsome
    exact absurd (hb s e he) (Std.not_le.mpr hbelow)
  -- The slot is taken, holds the proposal, is chosen by the own vote, and is executed.
  obtain ⟨e, he⟩ : ∃ e, e = LogEntry.proposal t.ballot (.client q.command) (some q) t.id t.now :=
    ⟨_, rfl⟩
  obtain ⟨taken, htaken⟩ : ∃ log, log = { t.log with highestSlot := s } := ⟨_, rfl⟩
  have hallocate : t.log.allocate = .ok (s, taken) :=
    map_eq_ok.mpr ⟨s, hs ▸ Slot.next_of_lt hlt, by rw [htaken]⟩
  have hinsert : taken.insert s e = .ok (taken.set s e) := by
    subst htaken
    rw [Log.insert_of_none (by exact hnone), Log.observe, if_neg Std.lt_irrefl]
  have hopen : e.isCommitted = false := by rw [he]; rfl
  have hreached : t.quorums.phase2Reached e.acks = true :=
    (phase2Reached_own (by rw [he]; rfl)).mpr hphase
  obtain ⟨t₁, ht₁⟩ : ∃ t₁ : Turn ρ σ, t₁ = Turn.emit (Turn.emit
      { t with log := (taken.set s e).set s e.commit }
      (.broadcast (.accept ⟨t.ballot, s, .client q.command⟩)))
      (.broadcast (.commit ⟨e.ballot, s, e.command⟩)) := ⟨_, rfl⟩
  have hvotes : t.propose q = t₁.executeReady := by
    unfold propose
    rw [if_pos ha]
    show t.log.allocate >>= _ = _
    rw [hallocate]
    show taken.insert s _ >>= _ = _
    rw [← he, hinsert]
    show askForVotes { t with log := taken.set s e } s _ = _
    rw [askForVotes, countVotes]
    simp only [emit, Log.get?_set, if_true, hopen, hreached, Bool.not_false, Bool.and_self]
    rw [ht₁]
    rfl
  have hcommand : e.commit.command = .client q.command := by rw [he]; rfl
  have hget : t₁.log.get? s = some e.commit := by
    rw [ht₁]
    exact (Log.get?_set ..).trans (if_pos rfl)
  have hready := executeReady_highest (by rw [ht₁, htaken]; exact hcursor)
    (by rw [ht₁, htaken]; rfl) (by rw [UInt64.lt_iff_toNat_lt]; omega) hget rfl hcommand
  refine ⟨{ t₁.log.set s e.commit.withoutRequest with executeCursor := s + 1 },
    hvotes.trans (hready.trans ?_), rfl, ?_, fun u => ?_⟩
  · rw [ht₁, he]
    simp only [emit, emitAll, List.append_assoc]
    rfl
  · rw [ht₁, htaken]
    rfl
  · show (t₁.log.set s e.commit.withoutRequest).get? u = _
    rw [Log.get?_set, ht₁]
    split
    · rw [he]
      rfl
    · rename_i hne
      show ((taken.set s e).set s e.commit).get? u = _
      rw [Log.get?_set, if_neg hne, Log.get?_set, if_neg hne, htaken]
      rfl

/-- **A request is carried out on the spot** by the leader. -/
theorem propose_alone (h : Alone machine commands t.toReplica) (ha : t.active = true)
    (q : ClientRequest) (hroom : commands.length + 1 < maxCounter.toNat) :
    ∃ t' out, t.propose q = .ok t' ∧ t'.effects = t.effects ++ out ∧
      Alone machine (commands ++ [q.command]) t'.toReplica ∧
      answers out = [(q, replyAfter machine commands q)] ∧ Calm out := by
  have hsize : maxCounter.toNat = 2 ^ 64 - 1 := rfl
  have hhigh := h.highest
  have hlt : t.log.highestSlot < maxCounter := by rw [UInt64.lt_iff_toNat_lt]; omega
  have hnext := Slot.toNat_succ hlt
  have hcursor : t.log.executeCursor = t.log.highestSlot + 1 := by
    rw [← UInt64.toNat_inj, hnext, h.cursor, hhigh]
  obtain ⟨s, hs⟩ : ∃ s, s = t.log.highestSlot + 1 := ⟨_, rfl⟩
  obtain ⟨log, hpropose, hcursor', hhigh', hget⟩ :=
    propose_eq q ha h.phase2 h.bounded hcursor (by omega) hs
  rw [← hs] at hnext
  have hslot : UInt64.ofNat (commands.length + 1) = s := by
    rw [← UInt64.toNat_inj, UInt64.toNat_ofNat_of_lt' (show _ < 2 ^ 64 by omega), hnext, hhigh]
  have hreply : replyAfter machine commands q =
      ⟨s, q.command, (StateMachine.execute q.command t.machine).1⟩ := by
    rw [replyAfter, hslot, h.machine]
  refine ⟨_, _, hpropose, rfl, ⟨h.phase1, h.phase2, .inl ha, h.pending, h.calm, ?_, ?_, ?_, ?_, ?_⟩,
    by rw [hreply]; rfl, by simp [Calm, Effect.isAlarm]⟩
  · show log.highestSlot.toNat = _
    rw [hhigh', hnext, hhigh, List.length_append]
    rfl
  · show log.executeCursor.toNat = _
    rw [hcursor', Slot.toNat_succ (by rw [UInt64.lt_iff_toNat_lt]; omega), hnext, hhigh,
      List.length_append]
    rfl
  · have hsentinel : s ≠ Slot.sentinel := by
      rintro rfl
      exact absurd hnext (Nat.zero_ne_add_one _)
    show log.get? Slot.sentinel = _
    rw [hget, if_neg hsentinel]
    exact h.sentinel
  · intro u hu
    show (log.get? u).map _ = _
    rw [hget]
    split
    · rename_i hsu
      rw [← hsu, hnext, hhigh, Nat.add_sub_cancel, List.getElem?_concat_length]
      rfl
    · rename_i hsu
      have hne : u.toNat ≠ commands.length + 1 := by
        rw [← hhigh, ← hnext]
        exact fun h => hsu (UInt64.toNat_inj.mp h).symm
      have hpos : u.toNat ≠ 0 := fun h => hu (UInt64.toNat_inj.mp h)
      rw [h.held u hu]
      congr 1
      by_cases hold : u.toNat - 1 < commands.length
      · rw [List.getElem?_append_left hold]
      · rw [List.getElem?_eq_none (by omega),
          List.getElem?_eq_none (by rw [List.length_append, List.length_singleton]; omega)]
  · show _ = (StateMachine.run (commands ++ [q.command]) machine).2
    rw [StateMachine.run_append, ← h.machine]
    rfl

/-- Requests are carried out in order by the leader. -/
theorem proposeAll_alone {queue : List ClientRequest} (h : Alone machine commands t.toReplica)
    (ha : t.active = true) (hroom : commands.length + queue.length < maxCounter.toNat) :
    ∃ t' out, queue.foldlM propose t = .ok t' ∧ t'.effects = t.effects ++ out ∧
      Alone machine (commands ++ queue.map ClientRequest.command) t'.toReplica ∧
      answers out = repliesAfter machine commands queue ∧ Calm out := by
  induction queue generalizing t commands with
  | nil => exact ⟨t, [], rfl, (List.append_nil _).symm, by simpa using h, rfl, by simp [Calm]⟩
  | cons q queue ih =>
    rw [List.length_cons] at hroom
    obtain ⟨t₁, out, h₁, heffects, halone, hanswers, hcalm⟩ := propose_alone h ha q (by omega)
    have hlead : t₁.active = true := halone.lead.resolve_right (by simp)
    obtain ⟨t', more, h', heffects', halone', hanswers', hcalm'⟩ :=
      ih halone hlead (by rw [List.length_append, List.length_singleton]; omega)
    refine ⟨t', out ++ more, ?_, by rw [heffects', heffects, List.append_assoc],
      by simpa using halone', by rw [answers_append, hanswers, hanswers']; rfl,
      List.forall_mem_append.mpr ⟨hcalm, hcalm'⟩⟩
    rw [List.foldlM_cons]
    exact bind_eq_ok.mpr ⟨t₁, h₁, h'⟩

end Turn

namespace Alone

variable {machine : σ} {commands : List Bytes} {r : Replica ρ σ}

theorem start {id : ReplicaId} {config : Config} {source : ρ}
    (h : Replica.start id 1 config source machine = .ok r) : Alone machine [] r := by
  have hsize := Config.clusterSize_of_quorums (Replica.quorums_of_start h)
  have hphase1 := r.quorums.phase1_pos
  have hphase2 := r.quorums.phase2_pos
  have hle1 := r.quorums.phase1_le
  have hle2 := r.quorums.phase2_le
  obtain ⟨quorums, rfl⟩ := Replica.start_eq_ok h
  refine ⟨by omega, by omega, .inr ⟨rfl, rfl⟩, rfl, rfl, rfl, rfl, ?_, fun s hs => ?_, rfl⟩
  · exact (Log.get?_empty _).trans (if_pos rfl)
  · show (Log.empty.get? s).map _ = _
    rw [Log.get?_empty, if_neg hs]
    rfl

/-- **The first election is won on the spot**, with the own promise, and what is in the queue is
carried out. -/
theorem elect (h : Alone machine commands r) (ha : r.active = false) (now : Duration)
    {queue : List ClientRequest} (hroom : commands.length + queue.length < maxCounter.toNat) :
    ∃ t, Turn.elect { r with now, pending := queue, effects := [] } = .ok t ∧
      Alone machine (commands ++ queue.map ClientRequest.command) t.toReplica ∧
      answers t.effects = repliesAfter machine commands queue ∧ Calm t.effects := by
  obtain ⟨hb, -⟩ := h.lead.resolve_left (by simp [ha])
  have hnext : r.ballot.next r.id = .ok ⟨1, some r.id⟩ := by rw [hb]; rfl
  have hreached : r.quorums.phase1Reached (Quorum.empty.ack r.id) = true := by
    rw [QuorumSpec.phase1Reached, h.phase1, Quorum.size_ack]
    rfl
  have hspan : r.log.span = 0 := by rw [Log.span, h.highest, h.cursor]; omega
  obtain ⟨t, ht⟩ : ∃ t : Turn ρ σ, t = { r with
    now
    ballot := ⟨1, some r.id⟩
    promises := Quorum.empty.ack r.id
    active := true
    pending := []
    effects := [.broadcast (.prepare ⟨⟨1, some r.id⟩, r.log.executeCursor⟩)] } := ⟨_, rfl⟩
  have halone : Alone machine commands t.toReplica := by
    rw [ht]
    exact { h with lead := .inl rfl, pending := rfl }
  obtain ⟨t', out, h', heffects, halone', hanswers, hcalm⟩ :=
    Turn.proposeAll_alone halone (by rw [ht]) hroom
  refine ⟨t', ?_, halone', ?_, ?_⟩
  · rw [Replica.elect_eq_takeOver ha hnext hreached, Turn.takeOver]
    simp only [hspan]
    subst ht
    exact bind_eq_ok.mpr ⟨_, rfl, bind_eq_ok.mpr ⟨t', h', Turn.executeReady_done halone'⟩⟩
  · rw [heffects, ht, answers_append, hanswers]
    rfl
  · rw [heffects, ht]
    exact List.forall_mem_append.mpr ⟨by simp [Effect.isAlarm], hcalm⟩

variable [RandomSource ρ] {input : Input}

/-- **One input**, whatever its route: it is handled, a request that it brings is answered at once,
and nothing is scheduled or handed back. -/
theorem step (h : Alone machine commands r) (hlocal : ∀ m, input ≠ .message m)
    (hroom : commands.length + input.requests.length < maxCounter.toNat) (now : Duration) :
    ∃ r' out, r.step now input = .ok (r', out) ∧
      Alone machine (commands ++ input.requests.map ClientRequest.command) r' ∧
      answers out = repliesAfter machine commands input.requests ∧ Calm out := by
  suffices hall : ∃ t, Turn.onInput { r with now, effects := [] } input = .ok t ∧
      Alone machine (commands ++ input.requests.map ClientRequest.command) t.toReplica ∧
      answers t.effects = repliesAfter machine commands input.requests ∧ Calm t.effects by
    obtain ⟨t, ht, halone, hanswers, hcalm⟩ := hall
    exact ⟨_, _, map_eq_ok.mpr ⟨t, ht, rfl⟩, halone, hanswers, hcalm⟩
  have helect : ∃ t, Turn.elect { r with now, effects := [] } = .ok t ∧
      Alone machine (commands ++ []) t.toReplica ∧ answers t.effects = [] ∧ Calm t.effects := by
    by_cases ha : r.active = true
    · exact ⟨_, if_pos ha, by simpa using h, rfl, by simp [Calm]⟩
    · obtain ⟨t, ht, hrest⟩ := h.elect (Bool.eq_false_iff.mpr ha) now
        (show commands.length + ([] : List ClientRequest).length < _ by rw [List.length_nil]; omega)
      rw [← h.pending] at ht
      exact ⟨t, ht, hrest⟩
  cases input with
  | message m => exact absurd rfl (hlocal m)
  | request q =>
    by_cases ha : r.active = true
    · obtain ⟨t, out, ht, heffects, halone, hanswers, hcalm⟩ :=
        Turn.propose_alone (t := { r with now, effects := [] }) h ha q hroom
      rw [List.nil_append] at heffects
      exact ⟨t, (if_pos ha).trans ht, halone, heffects ▸ hanswers, heffects ▸ hcalm⟩
    · -- The request waits in the queue, and the election that it starts carries it out.
      obtain ⟨hb, -⟩ := h.lead.resolve_left ha
      have hfree : ¬ r.ballot.isOwnedBy r.id = true := by rw [hb]; exact Bool.false_ne_true
      obtain ⟨t, ht, hrest⟩ := h.elect (Bool.eq_false_iff.mpr ha) now
        (show commands.length + [q].length < _ from hroom)
      have hqueue : r.pending ++ [q] = [q] := by rw [h.pending]; rfl
      rw [← hqueue] at ht
      exact ⟨t, (if_neg ha).trans ((if_neg hfree).trans ht), hrest⟩
  | elect => exact helect
  | backoffElapsed =>
    obtain ⟨t, ht, halone, hanswers, hcalm⟩ := helect
    exact ⟨_, map_eq_ok.mpr ⟨t, ht, rfl⟩, { halone with calm := rfl }, hanswers, hcalm⟩

/-- **Any number of inputs.** -/
theorem handleAll {timed : List (Duration × Input)} (h : Alone machine commands r)
    (hlocal : ∀ x ∈ timed, ∀ m, x.2 ≠ .message m)
    (hroom : commands.length + (submitted timed).length < maxCounter.toNat) :
    ∃ r' effects, Replica.handleAll timed r = .ok (r', effects) ∧
      Alone machine (commands ++ (submitted timed).map ClientRequest.command) r' ∧
      answers effects = repliesAfter machine commands (submitted timed) ∧ Calm effects := by
  induction timed generalizing r commands with
  | nil => exact ⟨r, [], rfl, by simpa [submitted] using h, rfl, by simp [Calm]⟩
  | cons x rest ih =>
    obtain ⟨now, input⟩ := x
    obtain ⟨hinput, hrest⟩ := List.forall_mem_cons.mp hlocal
    rw [submitted_cons, List.length_append] at hroom
    obtain ⟨r₁, out, hs, h₁, hanswers, hcalm⟩ := h.step hinput (by omega) now
    obtain ⟨r', more, hmore, h', hanswers', hcalm'⟩ :=
      ih h₁ hrest (by rw [List.length_append, List.length_map]; omega)
    refine ⟨r', out ++ more, ?_, ?_, ?_, List.forall_mem_append.mpr ⟨hcalm, hcalm'⟩⟩
    · exact bind_eq_ok.mpr ⟨_, hs, bind_eq_ok.mpr ⟨_, hmore, rfl⟩⟩
    · rw [submitted_cons, List.map_append, ← List.append_assoc]
      exact h'
    · rw [submitted_cons, repliesAfter_append, answers_append, hanswers, hanswers']

omit [RandomSource ρ] in
/-- No request is left in the log. -/
theorem requests_eq (h : Alone machine commands r) : r.log.requests = [] := by
  refine List.filterMap_eq_nil_iff.mpr fun p hp => ?_
  obtain ⟨s, e⟩ := p
  have he : r.log.get? s = some e := Std.ExtTreeMap.mem_toList_iff_getElem?_eq_some.mp hp
  by_cases hs : s = Slot.sentinel
  · rw [hs, h.sentinel, Option.some_inj] at he
    rw [← he]
    rfl
  · have hheld := h.held s hs
    rw [he] at hheld
    obtain ⟨c, -, hc⟩ := Option.map_eq_some_iff.mp hheld.symm
    exact (congrArg (·.2.2) hc).symm

end Alone

/-- **A cluster of one is the bare state machine.** Let a replica of a cluster of size 1, with any
quorums that are accepted, be given requests, elections and ends of delays, at any times, with fewer
requests than there are slots. Every input is handled to its end. The `i`-th request is answered in
its own step, at slot `i`, with its own command and the result of the state machine that runs the
first `i` commands in order. Nothing is ever scheduled or handed back; at the end, and so after
each input, no request is held in the queue or in the log, no slot above 0 holds a no-op, and the
cursor is one more than the number of requests. -/
theorem single_replica_is_state_machine [RandomSource ρ] {id : ReplicaId} {config : Config}
    {source : ρ} {machine : σ} {fresh : Replica ρ σ}
    (hstart : Replica.start id 1 config source machine = .ok fresh)
    {timed : List (Duration × Input)} (hlocal : ∀ x ∈ timed, ∀ m, x.2 ≠ .message m)
    (hroom : (submitted timed).length < maxCounter.toNat) :
    (∀ earlier now q later, timed = earlier ++ (now, .request q) :: later →
      ∃ r before r' out s value, Replica.handleAll earlier fresh = .ok (r, before) ∧
        r.step now (.request q) = .ok (r', out) ∧
        answers out = [(q, ⟨s, q.command, value⟩)] ∧
        s.toNat = (submitted earlier).length + 1 ∧
        (StateMachine.run ((submitted earlier).map ClientRequest.command ++ [q.command])
          machine).1.getLast? = some value) ∧
    ∃ r effects, Replica.handleAll timed fresh = .ok (r, effects) ∧
      (∀ x ∈ effects, x.isAlarm = false ∧ ∀ request, x ≠ .retry request) ∧
      r.pending = [] ∧ r.log.requests = [] ∧ r.backoff.inFlight = false ∧
      (∀ s e, Slot.sentinel < s → r.log.get? s = some e → e.command ≠ .noop) ∧
      r.log.executeCursor.toNat = (submitted timed).length + 1 ∧
      r.machine = (StateMachine.run ((submitted timed).map ClientRequest.command) machine).2 := by
  have hfresh := Alone.start hstart
  refine ⟨?_, ?_⟩
  · rintro earlier now q later rfl
    rw [submitted_append, submitted_cons, List.length_append, List.length_append] at hroom
    have hone : (Input.request q).requests.length = 1 := rfl
    obtain ⟨r, before, hr, h, -, -⟩ := hfresh.handleAll
      (fun x hx => hlocal x (List.mem_append_left _ hx))
      (by rw [List.length_nil]; omega)
    obtain ⟨r', out, hs, -, hanswers, -⟩ :=
      h.step (hlocal (now, .request q) (by simp))
        (by rw [List.length_append, List.length_nil, List.length_map]; omega) now
    rw [List.nil_append] at hanswers
    refine ⟨r, before, r', out, _, _, hr, hs, hanswers, ?_, ?_⟩
    · have hsize : maxCounter.toNat = 2 ^ 64 - 1 := rfl
      rw [List.length_map]
      exact UInt64.toNat_ofNat_of_lt' (show _ < 2 ^ 64 by omega)
    · rw [StateMachine.run_append]
      simp [StateMachine.run]
  · obtain ⟨r, effects, hr, h, -, hcalm⟩ := hfresh.handleAll hlocal (by simpa using hroom)
    refine ⟨r, effects, hr, hcalm, h.pending, h.requests_eq, h.calm, fun s e hs he => ?_, ?_,
      h.machine⟩
    · have hheld := h.held s (by rintro rfl; exact Std.lt_irrefl hs)
      rw [he] at hheld
      obtain ⟨c, -, hc⟩ := Option.map_eq_some_iff.mp hheld.symm
      have hcommand : Command.client c = e.command := congrArg Prod.fst hc
      rw [← hcommand]
      exact Command.noConfusion
    · rw [h.cursor, List.nil_append, List.length_map]

/-- A replica with quorums of one takes a request, an election and the end of a delay. The request
after them is answered from slot 2. -/
theorem single_replica_is_state_machine_second :
    ∃ (fresh r r' : Replica Script Journal) (before out : List Effect),
      Replica.start 7 1 ⟨100, 100, some 1, none⟩ ⟨[]⟩ Journal.empty = .ok fresh ∧
      Replica.handleAll
        [(.zero, .request ⟨0, [65]⟩), (.zero, .elect), (.zero, .backoffElapsed)] fresh =
          .ok (r, before) ∧
      r.step .zero (.request ⟨1, [66]⟩) = .ok (r', out) ∧
      answers out = [(⟨1, [66]⟩, ⟨2, [66], Decimal.bytes 2⟩)] := by
  obtain ⟨fresh, hstart⟩ : ∃ fresh, Replica.start 7 1 ⟨100, 100, some 1, none⟩ (⟨[]⟩ : Script)
      Journal.empty = .ok fresh := ⟨_, rfl⟩
  have hlocal : ∀ x ∈ ([(.zero, .request ⟨0, [65]⟩), (.zero, .elect), (.zero, .backoffElapsed),
      (.zero, .request ⟨1, [66]⟩)] : List (Duration × Input)), ∀ m, x.2 ≠ .message m := by
    simp
  obtain ⟨hanswered, -⟩ := single_replica_is_state_machine hstart hlocal (by decide)
  obtain ⟨r, before, r', out, s, value, hr, hs, hanswers, hslot, hvalue⟩ :=
    hanswered [(.zero, .request ⟨0, [65]⟩), (.zero, .elect), (.zero, .backoffElapsed)] .zero
      ⟨1, [66]⟩ [] rfl
  obtain rfl : s = 2 := UInt64.toNat_inj.mp hslot
  obtain rfl : Decimal.bytes 2 = value := Option.some_inj.mp hvalue
  exact ⟨fresh, r, r', before, out, hstart, hr, hs, hanswers⟩

end PaxosLog
