import Mathlib.Logic.Relation
import PaxosLog.Proofs.Log.Join
import PaxosLog.Replica.Step

/-!
# What a replica can do in a step

A step is a sequence of moves. `Move before input` lists them: each constructor is one thing that a
replica does to its state while it handles `input`, with the condition under which it does it and
the effects that come with it; `before` is the replica at the start of the step. A property of all
steps is then a property that every move keeps.

The lemmas after it invert the functions that moves are made of: what each does if it does not
fault. `TakesPromise`, `TakesAccept` and `TakesVote` list the ways in which a replica takes those
messages that it can take in more than one.
-/

namespace PaxosLog

open Relation (ReflTransGen)

/-- A vote proposed again under `ballot` at time `now`, with the own vote counted. -/
def LogEntry.reopened (e : LogEntry) (ballot : Ballot) (self : ReplicaId) (now : Duration) :
    LogEntry :=
  { e with ballot, acks := Quorum.empty.ack self, proposedAt := some now }

/-- The next slot is the one after the highest one and becomes it. -/
theorem Log.allocate_eq_ok {log log' : Log} {s : Slot} (h : log.allocate = .ok (s, log')) :
    log' = log.observe s ∧ log.highestSlot < s ∧ log.highestSlot.next = .ok s := by
  unfold allocate at h
  obtain ⟨s', hs', heq⟩ := map_eq_ok.mp h
  cases heq
  have hlt : log.highestSlot < s := by
    have := toNat_of_checkedSucc hs'
    rw [UInt64.lt_iff_toNat_lt]
    omega
  exact ⟨by simp [observe, hlt], hlt, hs'⟩

/-- A new entry goes to a slot without one. -/
theorem Log.insert_eq_ok {log log' : Log} {s : Slot} {e : LogEntry}
    (h : log.insert s e = .ok log') : log.get? s = none ∧ log' = (log.observe s).set s e := by
  unfold insert at h
  split at h
  · cases h
  · rename_i hs
    cases h
    exact ⟨by simpa using hs, rfl⟩

section Moves

variable {ρ σ : Type}

/-- Why another election is scheduled: a message brought a higher ballot, and either it is a promise
or there is work left. -/
def Superseded (before : Replica ρ σ) (input : Input) (t : Turn ρ σ) : Prop :=
  ∃ m, input = .message m ∧ before.ballot < m.ballot ∧
    (t.hasOutstandingWork = true ∨ ∃ promise, m = .promise promise)

variable [RandomSource ρ] [StateMachine σ]

/-- The moves of a replica that handles `input`. -/
inductive Move (before : Replica ρ σ) (input : Input) (t : Turn ρ σ) : Turn ρ σ → Prop
  /-- A request joins the queue. -/
  | enqueue (request : ClientRequest) (hi : input = .request request) (ha : t.active = false) :
      Move before input t { t with pending := t.pending ++ [request] }
  /-- A ballot is opened, once in a step. No message makes a replica do so. -/
  | elect (ballot : Ballot) (hlog : t.log = before.log) (ha : t.active = false)
      (hn : t.ballot.next t.id = .ok ballot) (hi : ∀ m, input ≠ .message m)
      (hb : t.ballot = before.ballot) :
      Move before input t ({ t with ballot, promises := Quorum.empty.ack t.id }.emit
        (.broadcast (.prepare ⟨ballot, t.log.executeCursor⟩)))
  /-- An election is won. -/
  | lead (ha : t.active = false) (ho : t.ballot.owner = some t.id)
      (hq : t.quorums.phase1Reached t.promises = true) :
      Move before input t { t with active := true }
  /-- The queue is taken, to be proposed. -/
  | dequeue (ha : t.active = true) : Move before input t { t with pending := [] }
  /-- A command is proposed at a slot without an entry: that of a request at the slot after the
  highest one, a no-op in a gap below. -/
  | offer (s : Slot) (command : Command) (request : Option ClientRequest)
      (ha : t.active = true) (hs : t.log.get? s = none)
      (hc : command = (request.map fun r => Command.client r.command).getD .noop)
      (hgap : request = none → s ≤ t.log.highestSlot)
      (hnext : request ≠ none → t.log.highestSlot.next = .ok s) :
      Move before input t
        (Turn.emit
          { t with log := (t.log.observe s).set s <| .proposal t.ballot command request t.id t.now }
          (.broadcast (.accept ⟨t.ballot, s, command⟩)))
  /-- The command of a vote is proposed again, by a new leader. -/
  | offerAgain (s : Slot) (e : LogEntry) (ha : t.active = true) (hs : t.log.get? s = some e)
      (hc : e.isCommitted = false) (hnew : before.active = false) :
      Move before input t
        (Turn.emit { t with log := t.log.set s (e.reopened t.ballot t.id t.now) }
          (.broadcast (.accept ⟨t.ballot, s, e.command⟩)))
  /-- A proposal with enough votes is chosen. -/
  | choose (s : Slot) (e : LogEntry) (ho : t.ballot.owner = some t.id)
      (hs : t.log.get? s = some e) (hc : e.isCommitted = false) (hb : e.ballot = t.ballot)
      (hq : t.quorums.phase2Reached e.acks = true) :
      Move before input t ({ t with log := t.log.set s e.commit }.emit
        (.broadcast (.commit ⟨e.ballot, s, e.command⟩)))
  /-- The chosen entry at the cursor is executed. -/
  | execute (t' : Turn ρ σ) (e : LogEntry) (hs : t.log.get? t.log.executeCursor = some e)
      (hc : e.isCommitted = true) (h : t.executeEntry e = .ok t') : Move before input t t'
  /-- A higher ballot is followed. -/
  | follow (m : Message) (hi : input = .message m) (hm : ∀ c, m ≠ .commit c)
      (hlt : t.ballot < m.ballot) :
      Move before input t { t with ballot := m.ballot, active := false }
  /-- Another election is scheduled, unless one is outstanding. -/
  | backOff (t' : Turn ρ σ) (h : t.scheduleBackoff = .ok t')
      (hwhy : Superseded before input t) : Move before input t t'
  /-- The outstanding delay has passed. -/
  | fired (hi : input = .backoffElapsed) :
      Move before input t { t with backoff := t.backoff.fired }
  /-- A candidate is answered. -/
  | answer (m : Prepare) (candidate : ReplicaId) (hi : input = .message (.prepare m))
      (ho : m.ballot.owner = some candidate) (hle : m.ballot ≤ t.ballot) :
      Move before input t
        (t.emit (.send candidate (.promise ⟨t.ballot, t.id, t.log.promised m.start⟩)))
  /-- A vote is cast. -/
  | vote (m : Accept) (proposer : ReplicaId) (log : Log) (displaced : Option ClientRequest)
      (hi : input = .message (.accept m)) (ho : m.ballot.owner = some proposer)
      (hb : t.ballot = m.ballot)
      (h : t.log.vote m.slot m.ballot m.command = .ok (log, displaced)) :
      Move before input t ((t.withLog log displaced.toList).emit
        (.send proposer (.accepted ⟨t.ballot, m.slot, t.id⟩)))
  /-- A vote is refused, because of a higher ballot. -/
  | refuse (m : Accept) (proposer : ReplicaId) (hi : input = .message (.accept m))
      (hstart : t.toReplica = before) (ho : m.ballot.owner = some proposer)
      (hlt : m.ballot < t.ballot) :
      Move before input t (t.emit (.send proposer (.accepted ⟨t.ballot, m.slot, t.id⟩)))
  /-- The report of a promise for another candidate is folded in, and its ballot followed. -/
  | report (m : Promise) (log : Log) (displaced : List ClientRequest)
      (hi : input = .message (.promise m)) (ha : t.active = false) (hle : t.ballot ≤ m.ballot)
      (ho : t.ballot < m.ballot ∨ m.ballot.owner ≠ some t.id)
      (h : t.log.merge m.log = .ok (log, displaced)) :
      Move before input t { t.withLog log displaced with ballot := m.ballot }
  /-- The report of a promise for the own ballot is folded in, and the promise counted. -/
  | countPromise (m : Promise) (log : Log) (displaced : List ClientRequest)
      (hi : input = .message (.promise m)) (hstart : t.toReplica = before)
      (ha : t.active = false) (hm : m.ballot = t.ballot) (ho : t.ballot.owner = some t.id)
      (h : t.log.merge m.log = .ok (log, displaced)) :
      Move before input t
        { t.withLog log displaced with promises := t.promises.ack m.sender }
  /-- A vote of another replica is counted. -/
  | countVote (m : Accepted) (e : LogEntry) (hi : input = .message (.accepted m))
      (hstart : t.toReplica = before) (hs : t.log.get? m.slot = some e)
      (hc : e.isCommitted = false) (hb : e.ballot = t.ballot)
      (hm : m.ballot = t.ballot) (ho : t.ballot.owner = some t.id) :
      Move before input t { t with log := t.log.set m.slot (e.ack m.sender) }
  /-- An announced command is taken as chosen. -/
  | learn (m : Commit) (log : Log) (displaced : Option ClientRequest)
      (hi : input = .message (.commit m)) (h0 : m.slot ≠ Slot.sentinel)
      (h : t.log.learn m.slot m.ballot m.command = .ok (log, displaced)) :
      Move before input t (t.withLog log displaced.toList)

/-- Moves one after another. -/
abbrev Moves (before : Replica ρ σ) (input : Input) : Turn ρ σ → Turn ρ σ → Prop :=
  ReflTransGen (Move before input)

variable {t t' : Turn ρ σ}

namespace Turn

omit [RandomSource ρ] in
/-- Executing an entry moves the cursor on and frees the request of the entry: with a no-op it is
handed back, with a command of a client it is answered with the result. -/
theorem executeEntry_cases {e : LogEntry} (h : t.executeEntry e = .ok t') :
    ∃ cursor machine effects, t.log.executeCursor.next = .ok cursor ∧
      t' = { t with
        log := { t.log.set t.log.executeCursor e.withoutRequest with executeCursor := cursor }
        machine
        effects := t.effects ++ effects } ∧
      (e.command = .noop ∧ machine = t.machine ∧ effects = e.request.toList.map .retry ∨
        ∃ c, e.command = .client c ∧ machine = (StateMachine.execute c t.machine).2 ∧
          effects = .execute t.log.executeCursor c (StateMachine.execute c t.machine).1 ::
            e.request.toList.map
              (.reply · ⟨t.log.executeCursor, c, (StateMachine.execute c t.machine).1⟩)) := by
  unfold executeEntry at h
  obtain ⟨cursor, hcur, ht⟩ := map_eq_ok.mp h
  cases hcmd : e.command with
  | noop =>
    rw [hcmd] at ht
    subst ht
    exact ⟨cursor, t.machine, _, hcur, rfl, .inl ⟨rfl, rfl, rfl⟩⟩
  | client command =>
    rw [hcmd] at ht
    subst ht
    exact ⟨cursor, _, _, hcur, rfl, .inr ⟨command, rfl, rfl, rfl⟩⟩

omit [RandomSource ρ] in
/-- Executing an entry sends nothing. -/
theorem executeEntry_eq_ok {e : LogEntry} (h : t.executeEntry e = .ok t') :
    ∃ cursor machine effects, t.log.executeCursor.next = .ok cursor ∧
      t' = { t with
        log := { t.log.set t.log.executeCursor e.withoutRequest with executeCursor := cursor }
        machine
        effects := t.effects ++ effects } ∧
      (∀ x ∈ effects, ∀ m, x ≠ .broadcast m ∧ ∀ q, x ≠ .send q m) := by
  obtain ⟨cursor, machine, effects, hcur, ht, hcase⟩ := executeEntry_cases h
  refine ⟨cursor, machine, effects, hcur, ht, fun x hx m => ?_⟩
  rcases hcase with ⟨-, -, rfl⟩ | ⟨c, -, -, rfl⟩
  · obtain ⟨r, -, rfl⟩ := List.mem_map.mp hx
    exact ⟨by simp, by simp⟩
  · rcases List.mem_cons.mp hx with rfl | hx
    · exact ⟨by simp, by simp⟩
    · obtain ⟨r, -, rfl⟩ := List.mem_map.mp hx
      exact ⟨by simp, by simp⟩

omit [RandomSource ρ] [StateMachine σ] in
theorem observeBallot_of_lt {b : Ballot} (h : t.ballot < b) :
    t.observeBallot b = { t with ballot := b, active := false } := by
  simp [observeBallot, h]

omit [StateMachine σ] in
/-- Nothing happens while a delay is outstanding; otherwise one is drawn and asked for. -/
theorem scheduleBackoff_cases (h : t.scheduleBackoff = .ok t') :
    t.backoff.inFlight = true ∧ t' = t ∨
      t.backoff.inFlight = false ∧ ∃ delay source, t' = { t with
        backoff := { t.backoff with inFlight := true }
        source
        effects := t.effects ++
          (t.backoff.policy.draws.map .draw ++ [.scheduleElection delay]) } := by
  unfold scheduleBackoff BackoffScheduler.arm at h
  cases hflight : t.backoff.inFlight with
  | true =>
    simp only [hflight, if_true, Except.ok.injEq] at h
    exact .inl ⟨rfl, h.symm⟩
  | false =>
    cases hd : t.backoff.policy.nextDelay t.source with
    | mk delay source =>
      cases delay with
      | error f => simp [hflight, hd, Except.map] at h
      | ok delay =>
        simp only [hflight, hd, Except.map] at h
        cases h
        exact .inr ⟨rfl, delay, source, rfl⟩

omit [StateMachine σ] in
/-- Another election may be scheduled; nothing else of the replica changes, and nothing is sent. -/
theorem scheduleBackoff_eq_ok (h : t.scheduleBackoff = .ok t') :
    ∃ backoff source effects, t' = { t with backoff, source, effects := t.effects ++ effects } ∧
      (∀ x ∈ effects, ∀ m, x ≠ .broadcast m ∧ ∀ q, x ≠ .send q m) := by
  rcases scheduleBackoff_cases h with ⟨-, rfl⟩ | ⟨-, delay, source, rfl⟩
  · exact ⟨t'.backoff, t'.source, [], by simp, by simp⟩
  · refine ⟨_, _, _, rfl, fun x hx m => ?_⟩
    rcases List.mem_append.mp hx with hx | hx
    · obtain ⟨d, -, rfl⟩ := List.mem_map.mp hx
      exact ⟨by simp, by simp⟩
    · rw [List.mem_singleton.mp hx]
      exact ⟨by simp, by simp⟩

omit [StateMachine σ] in
/-- Following a ballot makes the own one at least that, and sends nothing. -/
theorem follow_eq_ok {b : Ballot} (h : t.follow b = .ok t') :
    ∃ active backoff source effects,
      t' = { t with
        ballot := if t.ballot < b then b else t.ballot
        active
        backoff
        source
        effects := t.effects ++ effects } ∧
      (∀ x ∈ effects, ∀ m, x ≠ .broadcast m ∧ ∀ q, x ≠ .send q m) := by
  unfold follow at h
  split at h
  · rename_i hlt
    rw [observeBallot_of_lt hlt] at h
    rw [if_pos hlt]
    unfold scheduleBackoffIfNeeded at h
    split at h
    · obtain ⟨backoff, source, effects, rfl, hquiet⟩ := scheduleBackoff_eq_ok h
      exact ⟨_, backoff, source, effects, rfl, hquiet⟩
    · cases h
      exact ⟨false, t.backoff, t.source, [], by simp, by simp⟩
  · rename_i hge
    cases h
    rw [if_neg hge]
    exact ⟨t.active, t.backoff, t.source, [], by simp, by simp⟩

omit [StateMachine σ] in
/-- A followed ballot is not above the own one. -/
theorem le_ballot_of_follow {b : Ballot} (h : t.follow b = .ok t') : b ≤ t'.ballot := by
  obtain ⟨_, _, _, _, rfl, -⟩ := follow_eq_ok h
  show b ≤ if t.ballot < b then b else t.ballot
  split
  · exact Std.le_refl _
  · rename_i hge; exact Ballot.not_lt.mp hge

omit [StateMachine σ] in
/-- A ballot that is not below the own one becomes the own one. -/
theorem ballot_of_follow {b : Ballot} (hle : t.ballot ≤ b) (h : t.follow b = .ok t') :
    t'.ballot = b := by
  obtain ⟨_, _, _, _, rfl, -⟩ := follow_eq_ok h
  show (if t.ballot < b then b else t.ballot) = b
  split
  · rfl
  · rename_i hge; exact Std.le_antisymm hle (Ballot.not_lt.mp hge)

omit [StateMachine σ] in
/-- A replica that follows a higher ballot does not lead. No other ballot changes anything. -/
theorem follow_cases {b : Ballot} (h : t.follow b = .ok t') :
    t' = t ∨ t.ballot < b ∧ t'.ballot = b ∧ t'.active = false ∧ t'.id = t.id := by
  unfold follow at h
  split at h
  · rename_i hlt
    rw [observeBallot_of_lt hlt] at h
    unfold scheduleBackoffIfNeeded at h
    split at h
    · obtain ⟨_, _, _, rfl, -⟩ := scheduleBackoff_eq_ok h
      exact .inr ⟨hlt, rfl, rfl, rfl⟩
    · cases h
      exact .inr ⟨hlt, rfl, rfl, rfl⟩
  · cases h; exact .inl rfl

omit [RandomSource ρ] in
/-- A leader that proposes a request puts it at the slot after the highest one, which is free, and
asks for votes. -/
theorem propose_eq_ok {request : ClientRequest} (h : t.propose request = .ok t') :
    ∃ s, t.active = true ∧ t.log.allocate = .ok (s, t.log.observe s) ∧
      t.log.highestSlot.next = .ok s ∧ t.log.get? s = none ∧
      askForVotes { t with
          log := (t.log.observe s).set s <|
            .proposal t.ballot (.client request.command) (some request) t.id t.now }
        s (.client request.command) = .ok t' := by
  unfold propose at h
  by_cases ha : t.active = true
  case neg => rw [if_neg ha] at h; cases h
  rw [if_pos ha] at h
  obtain ⟨⟨s, log⟩, hallocate, h⟩ := bind_eq_ok.mp h
  obtain ⟨rfl, -, hnext⟩ := Log.allocate_eq_ok hallocate
  obtain ⟨log, hinsert, h⟩ := bind_eq_ok.mp h
  obtain ⟨hs, rfl⟩ := Log.insert_eq_ok hinsert
  rw [Log.get?_observe] at hs
  rw [Log.observe_observe] at h
  exact ⟨s, ha, hallocate, hnext, hs, h⟩

/-! ### Messages that a replica can take in more than one way -/

/-- What becomes of `t` when it takes a promise. -/
inductive TakesPromise (t : Turn ρ σ) (m : Promise) (t' : Turn ρ σ) : Prop
  /-- The replica leads, or the promise is for a lower ballot. -/
  | ignored (hn : t.active = true ∨ m.ballot < t.ballot) (h : t' = t)
  /-- The promise is for a higher ballot, and what it reports is taken all the same. -/
  | superseded (log : Log) (displaced : List ClientRequest) (t₁ : Turn ρ σ)
      (ha : t.active = false) (hlt : t.ballot < m.ballot)
      (hmerge : t.log.merge m.log = .ok (log, displaced))
      (h₁ : ({ t.withLog log displaced with ballot := m.ballot, active := false } :
        Turn ρ σ).scheduleBackoff = .ok t₁)
      (h₂ : t₁.executeReady = .ok t')
  /-- The promise is for the ballot of the candidate. -/
  | counted (log : Log) (displaced : List ClientRequest) (t₁ : Turn ρ σ)
      (ha : t.active = false) (hm : m.ballot = t.ballot) (ho : t.ballot.owner = some t.id)
      (hmerge : t.log.merge m.log = .ok (log, displaced))
      (h₁ : ({ t.withLog log displaced with promises := t.promises.ack m.sender } :
        Turn ρ σ).countPromises = .ok t₁)
      (h₂ : t₁.executeReady = .ok t')
  /-- The promise is for the ballot that the replica follows. -/
  | reported (log : Log) (displaced : List ClientRequest)
      (ha : t.active = false) (hm : m.ballot = t.ballot) (ho : t.ballot.owner ≠ some t.id)
      (hmerge : t.log.merge m.log = .ok (log, displaced))
      (h : (t.withLog log displaced).executeReady = .ok t')

theorem onPromise_eq_ok {m : Promise} (h : t.onPromise m = .ok t') : TakesPromise t m t' := by
  unfold onPromise at h
  split at h
  · rename_i hn
    cases h
    exact .ignored hn rfl
  · rename_i hn
    obtain ⟨ha, hle⟩ := not_or.mp hn
    rw [Bool.not_eq_true] at ha
    rw [Ballot.not_lt] at hle
    obtain ⟨⟨log, displaced⟩, hmerge, h⟩ := bind_eq_ok.mp h
    simp only at h
    split at h
    · rename_i hlt
      obtain ⟨t₁, h₁, h₂⟩ := bind_eq_ok.mp h
      rw [observeBallot_of_lt hlt] at h₁
      exact .superseded log displaced t₁ ha hlt hmerge h₁ h₂
    · rename_i hge
      have hm : m.ballot = t.ballot := Std.le_antisymm (Ballot.not_lt.mp hge) hle
      split at h
      · rename_i ho
        rw [hm, Ballot.isOwnedBy_iff] at ho
        obtain ⟨t₁, h₁, h₂⟩ := bind_eq_ok.mp h
        exact .counted log displaced t₁ ha hm ho hmerge h₁ h₂
      · rename_i ho
        rw [hm, Ballot.isOwnedBy_iff] at ho
        exact .reported log displaced ha hm ho hmerge h

/-- What becomes of `t` when it is asked for a vote. -/
inductive TakesAccept (t : Turn ρ σ) (m : Accept) (t' : Turn ρ σ) : Prop
  /-- Nobody owns the ballot. -/
  | ignored (h : t' = t) (ho : m.ballot.owner = none)
  /-- The replica holds a higher ballot. -/
  | refused (proposer : ReplicaId) (ho : m.ballot.owner = some proposer)
      (hlt : m.ballot < t.ballot)
      (h : t' = t.emit (.send proposer (.accepted ⟨t.ballot, m.slot, t.id⟩)))
  | voted (proposer : ReplicaId) (t₁ : Turn ρ σ) (log : Log) (displaced : Option ClientRequest)
      (ho : m.ballot.owner = some proposer) (hle : t.ballot ≤ m.ballot)
      (h₁ : t.follow m.ballot = .ok t₁)
      (hvote : t₁.log.vote m.slot m.ballot m.command = .ok (log, displaced))
      (h : t' = (t₁.withLog log displaced.toList).emit
        (.send proposer (.accepted ⟨t₁.ballot, m.slot, t₁.id⟩)))

omit [StateMachine σ] in
theorem onAccept_eq_ok {m : Accept} (h : t.onAccept m = .ok t') : TakesAccept t m t' := by
  unfold onAccept at h
  split at h
  · rename_i ho
    cases h
    exact .ignored rfl ho
  · rename_i proposer ho
    split at h
    · rename_i hlt
      cases h
      exact .refused proposer ho hlt rfl
    · rename_i hge
      obtain ⟨t₁, h₁, h⟩ := bind_eq_ok.mp h
      obtain ⟨⟨log, displaced⟩, hvote, h⟩ := bind_eq_ok.mp h
      cases h
      exact .voted proposer t₁ log displaced ho (Ballot.not_lt.mp hge) h₁ hvote rfl

/-- What becomes of `t` when it takes an answer to a request for votes. -/
inductive TakesVote (t : Turn ρ σ) (m : Accepted) (t' : Turn ρ σ) : Prop
  /-- Nothing is in the slot, or what is in it is chosen, or the vote is not for it. -/
  | ignored (h : t' = t)
  /-- The answer is a higher ballot. -/
  | superseded (hlt : t.ballot < m.ballot) (h : t.follow m.ballot = .ok t')
  /-- The answer is a vote for the proposal in the slot. -/
  | counted (e : LogEntry) (he : t.log.get? m.slot = some e) (hc : e.isCommitted = false)
      (hb : e.ballot = t.ballot) (hm : m.ballot = t.ballot) (ho : t.ballot.owner = some t.id)
      (h : ({ t with log := t.log.set m.slot (e.ack m.sender) } : Turn ρ σ).countVotes m.slot =
        .ok t')

theorem onAccepted_eq_ok {m : Accepted} (h : t.onAccepted m = .ok t') : TakesVote t m t' := by
  unfold onAccepted at h
  split at h
  · cases h; exact .ignored rfl
  · rename_i e he
    split at h
    · cases h; exact .ignored rfl
    · rename_i hn
      obtain ⟨hc, -⟩ := not_or.mp hn
      rw [Bool.not_eq_true] at hc
      split at h
      · rename_i hlt
        exact .superseded hlt (by rwa [follow, if_pos hlt])
      · split at h
        · rename_i heq
          obtain ⟨hm, hb, ho⟩ := heq
          rw [hm, Ballot.isOwnedBy_iff] at ho
          exact .counted e he hc (hb.symm.trans hm) hm ho h
        · cases h; exact .ignored rfl

end Turn

end Moves

end PaxosLog
