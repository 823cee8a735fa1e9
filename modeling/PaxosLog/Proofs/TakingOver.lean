import PaxosLog.Proofs.Replica.Absorb
import PaxosLog.Proofs.Replica.Proposals
import PaxosLog.Proofs.Replica.Run

/-!
# Taking over

A replica that wins an election takes over: it proposes what its log leaves open, and then the
requests that waited. `Replica.Wins` lists the ways to win, each with the replica as it is right
before it takes over; `TakenOver` says what the take-over makes of it.

* `Turn.takenOver`: a take-over succeeds as long as there is room for its slots, and proposes
  exactly what is needed.
* `Replica.exists_wins`: whoever begins to lead in a step has won in one of these ways.
* **`taken_over_of_wins`**: so the election of a replica ends in such a take-over, whatever its
  peers told it before.
-/

namespace PaxosLog

/-! ## What a take-over comes to -/

/-- The request for votes that an effect broadcasts. -/
def Effect.accept? : Effect → Option Accept
  | .broadcast (.accept m) => some m
  | _ => none

theorem Effect.accept?_of_not_isMessage {x : Effect} (h : ¬ x.IsMessage) : x.accept? = none := by
  cases x with
  | broadcast m => exact absurd trivial h
  | send q m => rfl
  | _ => rfl

/-- Votes are asked for in the order of the plan. -/
theorem Asks.accepts {ballot : Ballot} {alone : Bool} {plan : List (Slot × Command)}
    {effects : List Effect} (h : Asks ballot alone plan effects) :
    effects.filterMap Effect.accept? = plan.map fun p => ⟨ballot, p.1, p.2⟩ := by
  induction h with
  | nil => rfl
  | quiet hx _ ih => rw [List.filterMap_cons, Effect.accept?_of_not_isMessage hx, ih]
  | ask _ ih =>
    cases alone with
    | true => exact congrArg (_ :: ·) ih
    | false => exact congrArg (_ :: ·) ih

variable {ρ σ : Type}

/-- What a replica proposes when it takes over: what the slots from the cursor up to the highest one
hold, then the waiting requests. -/
def Turn.agenda (t : Turn ρ σ) : List (Slot × Command) :=
  t.log.reproposals ++ t.log.additions t.pending

/-- Emptying the queue takes nothing from what was proposed. -/
theorem Proposes.drain {t t' : Turn ρ σ} {plan : List (Slot × Command)} (h : Proposes t t' plan) :
    Proposes { t with pending := [] } { t' with pending := [] } plan where
  rest := congrArg (fun r : Replica ρ σ => { r with pending := [] }) h.rest
  cursor := h.cursor
  bounded := h.bounded
  asks := h.asks
  kept := h.kept
  held := h.held

/-- A replica takes over as `t` and proposes exactly what is needed, up to `t'`. -/
structure TakenOver (t t' : Turn ρ σ) : Prop where
  /-- Votes are asked for under the new ballot, for one proposal after another. If the own vote is
  enough, each is announced as chosen right after that. Nothing else is sent. -/
  asked : ∃ effects, t'.effects = t.effects ++ effects ∧
    effects.filterMap Effect.accept? = t.agenda.map (fun p => ⟨t.ballot, p.1, p.2⟩) ∧
    Asks t.ballot (t.quorums.phase2 = 1) t.agenda effects
  /-- No request waits. -/
  drained : t'.pending = []
  /-- The requests that waited have the slots after those that existed. -/
  highest : t'.log.highestSlot.toNat = t.log.highestSlot.toNat + t.pending.length
  /-- There is no gap. -/
  present : ∀ s, t.log.executeCursor ≤ s → s ≤ t'.log.highestSlot → ∃ e, t'.log.get? s = some e
  /-- What was proposed is in its slot, and chosen exactly if the own vote is enough. -/
  held : ∀ p ∈ t.agenda, ∃ e, t'.log.get? p.1 = some e ∧ e.command = p.2 ∧
    (e.isCommitted = true ↔ t.quorums.phase2 = 1)
  /-- What was chosen stays. -/
  settled : ∀ s e, t.log.get? s = some e → e.isCommitted = true → t.log.Keeps t'.log s
  /-- What is not chosen has the new ballot and the own vote only. -/
  awaiting : ∀ s e, t.log.executeCursor ≤ s → t'.log.get? s = some e → e.isCommitted = false →
    e.ballot = t.ballot ∧ e.acks.voters = [t.id]

namespace Turn

variable {t t' : Turn ρ σ}

theorem mem_slots_agenda (hroom : t.log.highestSlot.toNat + t.pending.length < maxCounter.toNat)
    {s : Slot} : s ∈ t.agenda.map Prod.fst ↔
      ((t.log.executeCursor ≤ s ∧ s ≤ t.log.highestSlot) ∧
        ∀ e, t.log.get? s = some e → e.isCommitted = false) ∨
      t.log.highestSlot < s ∧ s.toNat ≤ t.log.highestSlot.toNat + t.pending.length := by
  have hlt : t.log.highestSlot < maxCounter := by rw [UInt64.lt_iff_toNat_lt]; omega
  rw [agenda, List.map_append, List.mem_append, Log.mem_slots_reproposals hlt,
    Log.mem_slots_additions hroom]

/-- A slot that is not proposed is chosen. -/
theorem chosen_of_not_mem_agenda
    (hroom : t.log.highestSlot.toNat + t.pending.length < maxCounter.toNat) {s : Slot}
    (hout : s ∉ t.agenda.map Prod.fst) (hcursor : t.log.executeCursor ≤ s)
    (hs : s.toNat ≤ t.log.highestSlot.toNat + t.pending.length) :
    ∃ e, t.log.get? s = some e ∧ e.isCommitted = true := by
  rw [mem_slots_agenda hroom] at hout
  obtain ⟨hold, hnew⟩ := not_or.mp hout
  have hle : s ≤ t.log.highestSlot := Std.not_lt.mp fun hlt => hnew ⟨hlt, hs⟩
  have hnot : ¬ ∀ e, t.log.get? s = some e → e.isCommitted = false := fun h =>
    hold ⟨⟨hcursor, hle⟩, h⟩
  simpa using hnot

/-- A slot that is chosen is not proposed. -/
theorem not_mem_agenda (hroom : t.log.highestSlot.toNat + t.pending.length < maxCounter.toNat)
    (hb : t.log.Bounded) {s : Slot} {e : LogEntry} (he : t.log.get? s = some e)
    (hc : e.isCommitted = true) : s ∉ t.agenda.map Prod.fst := by
  rw [mem_slots_agenda hroom]
  rintro (⟨-, hopen⟩ | ⟨hlt, -⟩)
  · exact absurd (hc.symm.trans (hopen e he)) (by simp)
  · exact absurd (hb s e he) (Std.not_le.mpr hlt)

/-- A slot from the cursor on is chosen, or it was proposed under the new ballot. -/
theorem entry_of_proposes
    (hroom : t.log.highestSlot.toNat + t.pending.length < maxCounter.toNat)
    (h : Proposes { t with active := true, pending := [] } t' t.agenda) {s : Slot}
    (hcursor : t.log.executeCursor ≤ s)
    (hs : s.toNat ≤ t.log.highestSlot.toNat + t.pending.length) :
    ∃ e, t'.log.get? s = some e ∧
      (e.isCommitted = false → e.ballot = t.ballot ∧ e.acks.voters = [t.id]) := by
  by_cases hmem : s ∈ t.agenda.map Prod.fst
  · obtain ⟨p, hp, rfl⟩ := List.mem_map.mp hmem
    obtain ⟨e, he, hballot, -, hacks, -⟩ := h.held p hp
    exact ⟨e, he, fun _ => ⟨hballot, congrArg Quorum.voters hacks⟩⟩
  · obtain ⟨e, he, hc⟩ := chosen_of_not_mem_agenda hroom hmem hcursor hs
    rcases h.kept s hmem with hkept | ⟨-, f, -, hfc, hkept⟩
    · exact ⟨e, hkept.trans he, fun hopen => absurd (hc.symm.trans hopen) (by simp)⟩
    · exact ⟨_, hkept, fun hopen => absurd (hfc.symm.trans hopen) (by simp)⟩

/-- A leader that proposed its agenda has taken over. -/
theorem takenOver_of_proposes
    (hroom : t.log.highestSlot.toNat + t.pending.length < maxCounter.toNat)
    (hb : t.log.Bounded)
    (h : Proposes { t with active := true, pending := [] } t' t.agenda)
    (hhigh : t'.log.highestSlot.toNat = t.log.highestSlot.toNat + t.pending.length) :
    TakenOver t t' where
  asked := by
    obtain ⟨effects, heq, hasks⟩ := h.asks
    exact ⟨effects, heq, hasks.accepts, hasks⟩
  drained := by rw [h.rest]
  highest := hhigh
  present s hcursor hs := by
    rw [UInt64.le_iff_toNat_le, hhigh] at hs
    obtain ⟨e, he, -⟩ := entry_of_proposes hroom h hcursor hs
    exact ⟨e, he⟩
  held p hp := by
    obtain ⟨e, he, -, hcommand, -, hc⟩ := h.held p hp
    exact ⟨e, he, hcommand, hc⟩
  settled s e he hc := h.kept s (not_mem_agenda hroom hb he hc)
  awaiting s e hcursor he hc := by
    have hs := UInt64.le_iff_toNat_le.mp (h.bounded s e he)
    rw [hhigh] at hs
    obtain ⟨e', he', hopen⟩ := entry_of_proposes hroom h hcursor hs
    rw [he', Option.some_inj] at he
    exact he ▸ hopen (he ▸ hc)

variable [StateMachine σ]

/-- **A take-over succeeds** as long as there is a slot after those that it uses. -/
theorem takenOver (hroom : t.log.highestSlot.toNat + t.pending.length < maxCounter.toNat)
    (hb : t.log.Bounded) : ∃ t', t.takeOver = .ok t' ∧ TakenOver t t' ∧ t'.log.Idle := by
  have hlt : t.log.highestSlot < maxCounter := by rw [UInt64.lt_iff_toNat_lt]; omega
  obtain ⟨t₁, h₁, hp₁, hhigh₁⟩ :=
    proposes_reproposeFrom (t := { t with active := true }) hb hlt (Nat.le_refl t.log.span)
  have hqueue : t₁.pending = t.pending := by rw [hp₁.rest]
  have hplan : t₁.log.additions t.pending = t.log.additions t.pending := by
    rw [Log.additions, Log.additions, hhigh₁]
  have hroom₁ : t₁.log.highestSlot.toNat + t.pending.length < maxCounter.toNat := by
    rw [hhigh₁]; exact hroom
  obtain ⟨t₂, h₂, hp₂, hhigh₂⟩ := proposes_proposeAll (t := { t₁ with pending := [] })
    (by rw [hp₁.rest]) hp₁.bounded hroom₁
  have hhigh : t₂.log.highestSlot.toNat = t.log.highestSlot.toNat + t.pending.length := by
    rw [hhigh₂, hhigh₁]
  obtain ⟨t', h', hp', hhigh'⟩ := proposes_executeReady hp₂.bounded
    (by rw [UInt64.lt_iff_toNat_lt]; omega)
  refine ⟨t', ?_, takenOver_of_proposes hroom hb ?_ (hhigh' ▸ hhigh),
    idle_executeReady hp₂.bounded h'⟩
  · unfold takeOver
    refine bind_eq_ok.mpr ⟨t₁, h₁, bind_eq_ok.mpr ⟨t₂, ?_, h'⟩⟩
    rw [hqueue]
    exact h₂
  · have hall := (hp₁.drain.trans hp₂ ?_).trans hp' (by simp)
    · rw [List.append_nil, hplan] at hall
      exact hall
    · intro p hp hmem
      rw [hplan, Log.mem_slots_additions hroom] at hmem
      have hold := (Log.mem_slots_reproposals hlt).mp (List.mem_map_of_mem hp)
      exact absurd hmem.1 (Std.not_lt.mpr hold.1.2)

end Turn

/-! ## Winning an election -/

/-- The ways to win an election in a step, each with the replica as it is right before it takes
over. -/
inductive Replica.Wins (r : Replica ρ σ) (now : Duration) : Input → Turn ρ σ → Prop
  /-- The replica opens a ballot, and its own promise is enough. A request makes it do so only if it
  has no election in flight. -/
  | alone (input : Input) (ballot : Ballot) (ha : r.active = false)
      (hi : ∀ m, input ≠ .message m)
      (hfree : ∀ request, input = .request request → r.ballot.owner ≠ some r.id)
      (hn : r.ballot.next r.id = .ok ballot)
      (hq : r.quorums.phase1Reached (Quorum.empty.ack r.id) = true) :
      Wins r now input
        { r with
          now
          ballot
          promises := Quorum.empty.ack r.id
          pending := r.pending ++ input.requests
          effects := [.broadcast (.prepare ⟨ballot, r.log.executeCursor⟩)] }
  /-- The promise that was missing arrives, and what it reports is folded in. -/
  | promise (m : Promise) (log : Log) (displaced : List ClientRequest) (ha : r.active = false)
      (hm : m.ballot = r.ballot) (ho : r.ballot.owner = some r.id)
      (hmerge : r.log.merge m.log = .ok (log, displaced))
      (hq : r.quorums.phase1Reached (r.promises.ack m.sender) = true) :
      Wins r now (.message (.promise m))
        { r with
          now
          log
          promises := r.promises.ack m.sender
          effects := displaced.map .retry }

namespace Replica

variable {r r' : Replica ρ σ} {now : Duration} {input : Input} {t t' : Turn ρ σ}

theorem Wins.bounded (h : r.Wins now input t) (hb : r.log.Bounded) : t.log.Bounded := by
  cases h with
  | alone => exact hb
  | promise m log displaced ha hm ho hmerge hq => exact hb.merged (Log.merged_merge hmerge)

variable [StateMachine σ]

/-- A replica whose own promise is enough takes over as soon as it starts an election. -/
theorem elect_eq_takeOver {ballot : Ballot} {queue : List ClientRequest} (ha : r.active = false)
    (hn : r.ballot.next r.id = .ok ballot)
    (hq : r.quorums.phase1Reached (Quorum.empty.ack r.id) = true) :
    Turn.elect { r with now, pending := queue, effects := [] } =
      Turn.takeOver
        { r with
          now
          ballot
          promises := Quorum.empty.ack r.id
          pending := queue
          effects := [.broadcast (.prepare ⟨ballot, r.log.executeCursor⟩)] } := by
  unfold Turn.elect
  rw [if_neg (by simp [ha]), hn]
  exact if_pos hq

variable [RandomSource ρ]

/-- The step of an input that wins an election is the take-over. -/
theorem Wins.step (h : r.Wins now input t) (h' : t.takeOver = .ok t') (hidle : t'.log.Idle) :
    ∃ backoff, r.step now input = .ok ({ t'.toReplica with backoff }, t'.effects) := by
  cases h with
  | alone input ballot ha hi hfree hn hq =>
    rw [← elect_eq_takeOver ha hn hq] at h'
    cases input with
    | message m => exact absurd rfl (hi m)
    | request request =>
      have hother : ¬ r.ballot.isOwnedBy r.id = true := fun ho =>
        hfree request rfl (Ballot.isOwnedBy_iff.mp ho)
      refine ⟨t'.backoff, map_eq_ok.mpr ⟨t', ?_, rfl⟩⟩
      show Turn.onRequest { r with now, effects := [] } request = .ok t'
      unfold Turn.onRequest
      rw [if_neg (by simp [ha])]
      exact (if_neg hother).trans h'
    | elect =>
      rw [show r.pending ++ Input.elect.requests = r.pending from List.append_nil _] at h'
      exact ⟨t'.backoff, map_eq_ok.mpr ⟨t', h', rfl⟩⟩
    | backoffElapsed =>
      rw [show r.pending ++ Input.backoffElapsed.requests = r.pending from List.append_nil _] at h'
      exact ⟨t'.backoff.fired, map_eq_ok.mpr ⟨_, map_eq_ok.mpr ⟨t', h', rfl⟩, rfl⟩⟩
  | promise m log displaced ha hm ho hmerge hq =>
    refine ⟨t'.backoff, map_eq_ok.mpr ⟨t', ?_, rfl⟩⟩
    have hle : ¬ r.ballot < r.ballot := Std.lt_irrefl
    have hown : m.ballot.isOwnedBy r.id = true := hm ▸ Ballot.isOwnedBy_iff.mpr ho
    show Turn.onPromise { r with now, effects := [] } m = .ok t'
    unfold Turn.onPromise
    rw [if_neg (by simp [ha, hm, hle])]
    refine bind_eq_ok.mpr ⟨(log, displaced), hmerge, ?_⟩
    simp only [Turn.withLog_toReplica, hm, if_neg hle]
    rw [if_pos (hm ▸ hown)]
    refine bind_eq_ok.mpr ⟨t', ?_, Turn.executeReady_of_idle hidle⟩
    exact (if_pos hq).trans h'

end Replica

/-! ### Only by winning -/

namespace Turn

variable {t t' : Turn ρ σ} [RandomSource ρ]

theorem not_active_follow {b : Ballot} (ha : t.active = false) (h : t.follow b = .ok t') :
    t'.active = false := by
  rcases follow_cases h with rfl | ⟨-, -, ha', -⟩
  · exact ha
  · exact ha'

variable [StateMachine σ]

theorem active_executeReady (h : t.executeReady = .ok t') : t'.active = t.active :=
  (works_executeReady h : Works t.toReplica .elect [] t t').active

/-- No other message than a promise makes a replica lead. -/
theorem not_active_onMessage {m : Message} (hm : ∀ p, m ≠ .promise p) (ha : t.active = false)
    (h : t.onMessage m = .ok t') : t'.active = false := by
  cases m with
  | promise p => exact absurd rfl (hm p)
  | prepare m =>
    change t.onPrepare m = .ok t' at h
    unfold onPrepare at h
    split at h
    · cases h; exact ha
    · obtain ⟨t₁, h₁, h⟩ := bind_eq_ok.mp h
      cases h
      show t₁.active = false
      exact not_active_follow ha h₁
  | accept m =>
    cases onAccept_eq_ok h with
    | ignored h => exact h ▸ ha
    | refused proposer ho hlt h => exact h ▸ ha
    | voted proposer t₁ log displaced ho hle h₁ hvote h =>
      subst h
      show t₁.active = false
      exact not_active_follow ha h₁
  | accepted m =>
    cases onAccepted_eq_ok h with
    | ignored h => exact h ▸ ha
    | superseded hlt h => exact not_active_follow ha h
    | counted e he hc hb hm ho h =>
      exact (works_counted hb ho h : Works t.toReplica .elect [] _ t').active.trans ha
  | commit m =>
    change t.onCommit m = .ok t' at h
    unfold onCommit at h
    split at h
    · cases h; exact ha
    · obtain ⟨⟨log, displaced⟩, -, h⟩ := bind_eq_ok.mp h
      exact (active_executeReady h).trans ha

end Turn

namespace Replica

variable {r r' : Replica ρ σ} {now : Duration} {input : Input} [RandomSource ρ] [StateMachine σ]

omit [RandomSource ρ] in
/-- Who begins to lead when it starts an election has won with its own promise. -/
theorem wins_of_elect {queue : List ClientRequest} {t' : Turn ρ σ} (ha : r.active = false)
    (hi : ∀ m, input ≠ .message m)
    (hfree : ∀ request, input = .request request → r.ballot.owner ≠ some r.id)
    (h : Turn.elect { r with now, pending := queue, effects := [] } = .ok t')
    (ha' : t'.active = true) : ∃ t, r.Wins now input t := by
  unfold Turn.elect at h
  rw [if_neg (by simp [ha])] at h
  obtain ⟨ballot, hn, h⟩ := bind_eq_ok.mp h
  unfold Turn.countPromises at h
  split at h
  · rename_i hq
    exact ⟨_, .alone input ballot ha hi hfree hn hq⟩
  · cases h
    exact absurd (ha.symm.trans ha') (by simp)

/-- Who begins to lead when it takes a promise has counted it. -/
theorem wins_of_promise {m : Promise} {t' : Turn ρ σ} (ha : r.active = false)
    (h : Turn.onPromise { r with now, effects := [] } m = .ok t') (ha' : t'.active = true) :
    ∃ t, r.Wins now (.message (.promise m)) t := by
  cases Turn.onPromise_eq_ok h with
  | ignored hn h =>
    subst h
    exact absurd (ha.symm.trans ha') (by simp)
  | superseded log displaced t₁ hinactive hlt hmerge h₁ h₂ =>
    obtain ⟨_, _, _, rfl, -⟩ := Turn.scheduleBackoff_eq_ok h₁
    exact absurd ((Turn.active_executeReady h₂).symm.trans ha') (by simp)
  | counted log displaced t₁ hinactive hm ho hmerge h₁ h₂ =>
    unfold Turn.countPromises at h₁
    split at h₁
    · rename_i hq
      exact ⟨_, .promise m log displaced ha hm ho hmerge hq⟩
    · cases h₁
      exact absurd (ha.symm.trans ((Turn.active_executeReady h₂).symm.trans ha')) (by simp)
  | reported log displaced hinactive hm ho hmerge h =>
    exact absurd (ha.symm.trans ((Turn.active_executeReady h).symm.trans ha')) (by simp)

/-- **Whoever begins to lead in a step has won an election.** -/
theorem exists_wins {out : List Effect} (ha : r.active = false)
    (h : r.step now input = .ok (r', out)) (ha' : r'.active = true) : ∃ t, r.Wins now input t := by
  obtain ⟨t', ht, heq⟩ := map_eq_ok.mp h
  cases heq
  clear h
  cases input with
  | request request =>
    change Turn.onRequest _ request = .ok t' at ht
    unfold Turn.onRequest at ht
    rw [if_neg (by simp [ha])] at ht
    simp only at ht
    split at ht
    · cases ht
      exact absurd (ha.symm.trans ha') (by simp)
    · rename_i hother
      exact wins_of_elect ha (by simp) (fun _ _ ho => hother (Ballot.isOwnedBy_iff.mpr ho)) ht ha'
  | elect => exact wins_of_elect ha (by simp) (by simp) ht ha'
  | backoffElapsed =>
    obtain ⟨t₁, h₁, rfl⟩ := map_eq_ok.mp ht
    exact wins_of_elect ha (by simp) (by simp) h₁ ha'
  | message m =>
    by_cases hm : ∃ p, m = .promise p
    · obtain ⟨p, rfl⟩ := hm
      exact wins_of_promise ha ht ha'
    · have hinactive := Turn.not_active_onMessage (fun p hp => hm ⟨p, hp⟩) (by exact ha) ht
      exact absurd (hinactive.symm.trans ha') (by simp)

end Replica

/-! ## The election of a replica -/

/-- **Taking over proposes exactly what is needed.** Let a replica win an election after any inputs,
whatever its peers told it, and let there be a slot after those that it needs. Then the step comes
to its end with the take-over, up to the schedule of elections, and the take-over asks for votes
for the open slots and the waiting requests and nothing else (`TakenOver`). No replica begins to
lead without winning an election. -/
theorem taken_over_of_wins [RandomSource ρ] [StateMachine σ] {id : ReplicaId} {n : Nat}
    {config : Config} {source : ρ} {machine : σ} {fresh r : Replica ρ σ} {inputs : List Input}
    {effects : List Effect} (hstart : Replica.start id n config source machine = .ok fresh)
    (hrun : fresh.Run inputs r effects) (now : Duration) (input : Input) :
    (∀ t, r.Wins now input t →
      t.log.highestSlot.toNat + t.pending.length < maxCounter.toNat →
        ∃ t' backoff, t.takeOver = .ok t' ∧
          r.step now input = .ok ({ t'.toReplica with backoff }, t'.effects) ∧ TakenOver t t') ∧
    ∀ r' out, r.step now input = .ok (r', out) → r.active = false → r'.active = true →
      ∃ t, r.Wins now input t := by
  refine ⟨fun t hwins hroom => ?_, fun r' out hs ha ha' => Replica.exists_wins ha hs ha'⟩
  have hbounded := (hrun.tidy (Tidy.start hstart)).bounded
  obtain ⟨t', h', htaken, hidle⟩ := Turn.takenOver hroom (hwins.bounded hbounded)
  obtain ⟨backoff, hs⟩ := hwins.step h' hidle
  exact ⟨t', backoff, h', hs, htaken⟩

/-- Replica 1 opens a ballot for a request of its own, and a promise reports the vote for a slot
behind a gap. -/
theorem taken_over_of_wins_gap : ∃ (r r' : Replica Script Journal) (out : List Effect),
    r.step .zero (.message (.promise ⟨⟨2, some 1⟩, 2,
      .ofPairs [(2, ⟨.client [66], ⟨1, some 3⟩, false⟩)]⟩)) = .ok (r', out) ∧
    out.filterMap Effect.accept? = [⟨⟨2, some 1⟩, 1, .noop⟩, ⟨⟨2, some 1⟩, 2, .client [66]⟩,
      ⟨⟨2, some 1⟩, 3, .client [65]⟩] ∧
    r'.pending = [] ∧ r'.log.highestSlot = 3 := by
  obtain ⟨r, effects, hrun, ha, hb, hid, hlog, hpending, hq⟩ := Replica.Run.exists_of_feed
    (Network.trio.replica 1)
    [.message (.prepare ⟨⟨1, some 3⟩, 1⟩), .request ⟨0, [65]⟩]
    (fun p => p.1.active = false ∧ p.1.ballot = ⟨2, some 1⟩ ∧ p.1.id = 1 ∧ p.1.log = .empty ∧
      p.1.pending = [⟨0, [65]⟩] ∧ p.1.quorums.phase1Reached (p.1.promises.ack 2) = true)
    (by decide +kernel)
  have hstart : Replica.start 1 3 .standard (⟨[]⟩ : Script) Journal.empty =
      .ok (Network.trio.replica 1) := rfl
  obtain ⟨log, hmerge, hhigh, hopen, hnext⟩ : ∃ log : Log,
      r.log.merge (.ofPairs [(2, ⟨.client [66], ⟨1, some 3⟩, false⟩)]) = .ok (log, []) ∧
        log.highestSlot = 2 ∧ log.reproposals = [(1, .noop), (2, .client [66])] ∧
        log.additions r.pending = [(3, .client [65])] := by
    refine ⟨(Log.empty.observe 2).set 2 (.vote ⟨1, some 3⟩ (.client [66])), ?_⟩
    rw [hlog, hpending]
    decide +kernel
  have hroom : log.highestSlot.toNat + r.pending.length < maxCounter.toNat := by
    rw [hhigh, hpending]
    decide
  obtain ⟨t', backoff, -, hs, ⟨during, hout, haccepts, -⟩, hdrained, hhighest, -, -, -, -⟩ :=
    (taken_over_of_wins hstart hrun .zero _).1 _
      (.promise ⟨⟨2, some 1⟩, 2, _⟩ log [] ha hb.symm (by rw [hb, hid]) hmerge hq) hroom
  refine ⟨r, _, t'.effects, hs, ?_, hdrained, ?_⟩
  · change t'.effects = [] ++ during at hout
    change _ = (log.reproposals ++ log.additions r.pending).map
      (fun p => Accept.mk r.ballot p.1 p.2) at haccepts
    rw [hout, List.nil_append, haccepts, hopen, hnext, show r.ballot = _ from hb]
    rfl
  · change t'.log.highestSlot.toNat = log.highestSlot.toNat + r.pending.length at hhighest
    rw [hhigh, hpending] at hhighest
    exact UInt64.toNat_inj.mp hhighest

end PaxosLog
