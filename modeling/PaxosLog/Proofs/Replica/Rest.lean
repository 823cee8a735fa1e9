import PaxosLog.Proofs.Replica.Limits

/-!
# What a replica leaves behind

Between two inputs nothing is left lying. `Rested` says what that means for a single replica,
whatever its peers tell it: no chosen entry waits at the cursor, a leader has no request in its
queue, and a replica that holds requests that are not agreed on has an election in flight or
scheduled.

* `Turn.Executes`: execution as a loop that goes on until no chosen entry is at the cursor, which is
  what the bounded one amounts to (`Turn.executes_of_executeUpTo`).
* **`rested_of_step`**: a step leaves a replica rested that was rested before.
-/

namespace PaxosLog

namespace Log

/-- The entry at the cursor, if there is one, is not chosen. -/
def Idle (log : Log) : Prop := ∀ e, log.get? log.executeCursor = some e → e.isCommitted = false

theorem idle_empty : empty.Idle := by
  intro e he
  rw [get?_empty, if_neg (by decide)] at he
  cases he

/-- A slot that takes a vote does not make the cursor's entry a chosen one. -/
theorem Idle.set {log : Log} (h : log.Idle) (s : Slot) {e : LogEntry}
    (he : e.isCommitted = false) : (log.set s e).Idle := by
  intro f hf
  change (log.set s e).get? log.executeCursor = some f at hf
  rw [get?_set] at hf
  split at hf
  · cases hf; exact he
  · exact h f hf

theorem Idle.observe {log : Log} (h : log.Idle) (s : Slot) : (log.observe s).Idle := by
  intro e he
  rw [executeCursor_observe, get?_observe] at he
  exact h e he

theorem Idle.vote {log log' : Log} (h : log.Idle) {s : Slot} {b : Ballot} {c : Command}
    (hj : Joined log log' s ⟨c, b, false⟩) : log'.Idle := by
  intro e he
  rw [hj.cursor, hj.get?] at he
  split at he
  · rename_i hst
    subst hst
    cases hc : e.isCommitted with
    | false => rfl
    | true =>
      rcases LogEntry.chosen_of_join (Option.some_inj.mp he) hc with hold | ⟨hr, -⟩
      · exact hc.symm.trans (h e hold)
      · cases hr
  · exact h e he

end Log

variable {ρ σ : Type}

/-- Nothing is left lying between two inputs. -/
structure Rested (r : Replica ρ σ) : Prop where
  idle : r.log.Idle
  drained : r.active = true → r.pending = []
  armed : r.hasOutstandingWork = true → r.ballot.owner = some r.id ∨ r.backoff.inFlight = true

/-- Requests in the queue or in votes. -/
theorem hasOutstandingWork_iff {r : Replica ρ σ} :
    r.hasOutstandingWork = true ↔ r.pending ≠ [] ∨ r.log.hasOwnedUncommitted = true := by
  simp [Replica.hasOutstandingWork]

theorem Rested.start {id : ReplicaId} {n : Nat} {config : Config} {source : ρ} {machine : σ}
    {r : Replica ρ σ} (h : Replica.start id n config source machine = .ok r) : Rested r := by
  obtain ⟨quorums, rfl⟩ := Replica.start_eq_ok h
  refine ⟨Log.idle_empty, fun _ => rfl, fun hwork => ?_⟩
  rcases hasOutstandingWork_iff.mp hwork with hp | hlog
  · exact absurd rfl hp
  · obtain ⟨s, e, he, -, hc, -⟩ := Log.hasOwnedUncommitted_iff.mp hlog
    exact absurd ⟨he, hc⟩ Log.not_open_empty

variable [RandomSource ρ] [StateMachine σ]

namespace Turn

variable {t t' : Turn ρ σ}

/-! ## Executing and choosing -/

/-- Execution as a loop without a bound: as long as the entry at the cursor is chosen, it is
executed. -/
inductive Executes : Turn ρ σ → Turn ρ σ → Prop
  | stop (t : Turn ρ σ) (h : t.log.Idle) : Executes t t
  | next {t t₁ t' : Turn ρ σ} (e : LogEntry) (he : t.log.get? t.log.executeCursor = some e)
      (hc : e.isCommitted = true) (h₁ : t.executeEntry e = .ok t₁) (h : Executes t₁ t') :
      Executes t t'

omit [RandomSource ρ] in
theorem Executes.idle (h : t.Executes t') : t'.log.Idle := by
  induction h with
  | stop t h => exact h
  | next e he hc h₁ h ih => exact ih

omit [RandomSource ρ] in
/-- **Execution is not cut short** by its bound: there are no entries above the highest slot. -/
theorem executes_of_executeUpTo {count : Nat} (hb : t.log.Bounded) (hspan : t.log.span ≤ count)
    (h : t.executeUpTo count = .ok t') : t.Executes t' := by
  induction count generalizing t with
  | zero =>
    cases h
    refine .stop _ fun e he => ?_
    have hle := UInt64.le_iff_toNat_le.mp (hb _ e he)
    unfold Log.span at hspan
    omega
  | succ count ih =>
    unfold executeUpTo at h
    split at h
    · rename_i hs
      cases h
      refine .stop _ fun e he => ?_
      rw [hs] at he
      cases he
    · rename_i e hs
      split at h
      · rename_i hc
        obtain ⟨t₁, h₁, h₂⟩ := bind_eq_ok.mp h
        refine .next e hs hc h₁ ?_
        obtain ⟨cursor, _, _, hcur, rfl, -⟩ := executeEntry_eq_ok h₁
        have hnext := toNat_of_checkedSucc hcur
        refine ih (hb.set hs e.withoutRequest) ?_ h₂
        show t.log.highestSlot.toNat + 1 - cursor.toNat ≤ count
        unfold Log.span at hspan
        omega
      · rename_i hc
        cases h
        refine .stop _ fun e' he' => ?_
        rw [hs] at he'
        cases he'
        exact (Bool.not_eq_true _).mp hc

omit [RandomSource ρ] in
theorem idle_executeReady (hb : t.log.Bounded) (h : t.executeReady = .ok t') : t'.log.Idle :=
  (executes_of_executeUpTo hb (Nat.le_refl _) h).idle

omit [RandomSource ρ] in
theorem idle_countVotes {s : Slot} (hb : t.log.Bounded) (hidle : t.log.Idle)
    (h : t.countVotes s = .ok t') : t'.log.Idle := by
  unfold countVotes at h
  split at h
  · cases h; exact hidle
  · rename_i e he
    split at h
    · exact idle_executeReady (hb.set he e.commit) h
    · cases h; exact hidle

omit [RandomSource ρ] in
/-- Execution takes no request up. -/
theorem lightens_executeUpTo {count : Nat} (h : t.executeUpTo count = .ok t') :
    t.log.Lightens t'.log := by
  induction count generalizing t with
  | zero => cases h; exact Log.lightens_refl _
  | succ count ih =>
    unfold executeUpTo at h
    split at h
    · cases h; exact Log.lightens_refl _
    · split at h
      · obtain ⟨t₁, h₁, h₂⟩ := bind_eq_ok.mp h
        obtain ⟨cursor, _, _, hcur, rfl, -⟩ := executeEntry_eq_ok h₁
        have hnext := toNat_of_checkedSucc hcur
        refine Log.Lightens.trans ⟨fun u f hf hc hr => ?_, ?_⟩ (ih h₂)
        · change (t.log.set _ _).get? u = some f at hf
          rw [Log.get?_set] at hf
          split at hf
          · cases hf; cases hr
          · exact ⟨f, hf, hc, hr⟩
        · rw [UInt64.le_iff_toNat_le]
          show _ ≤ cursor.toNat
          omega
      · cases h; exact Log.lightens_refl _

/-- Executing what became ready leaves a replica rested that has an election in flight or scheduled
if it needs one. -/
theorem rested_executeReady (hb : t.log.Bounded) (hd : t.active = true → t.pending = [])
    (ha : t.hasOutstandingWork = true → t.ballot.owner = some t.id ∨ t.backoff.inFlight = true)
    (h : t.executeReady = .ok t') : Rested t'.toReplica := by
  have hw : Works t.toReplica .elect [] t t' := works_executeReady h
  have hlight := lightens_executeUpTo h
  refine ⟨idle_executeReady hb h, fun hact => ?_, fun hwork => ?_⟩
  · rw [hw.pending]
    exact hd (hw.active.symm.trans hact)
  · rw [hasOutstandingWork_iff, hw.pending] at hwork
    rw [hw.rest]
    exact ha (hasOutstandingWork_iff.mpr (hwork.imp_right hlight.hasOwnedUncommitted))

/-! ## Proposing -/

omit [RandomSource ρ] in
theorem idle_propose {request : ClientRequest} (hb : t.log.Bounded) (hidle : t.log.Idle)
    (h : t.propose request = .ok t') : t'.log.Idle := by
  obtain ⟨s, -, -, -, -, h⟩ := propose_eq_ok h
  refine idle_countVotes (hb.of_observe (fun u hu => by simp [emit, hu]) rfl)
    ((hidle.observe s).set s rfl) h

/-- A leader that proposes stays rested. -/
theorem rested_propose {request : ClientRequest} (ht : Tidy t.toReplica) (ha : t.active = true)
    (hr : Rested t.toReplica) (h : t.propose request = .ok t') : Rested t'.toReplica := by
  have hw : Works t.toReplica .elect [request] t t' :=
    works_propose (ht.lead ha).1 (fun _ => .inl ha) h
  refine ⟨idle_propose ht.bounded hr.idle h, fun _ => ?_, fun _ => ?_⟩
  · rw [hw.pending]; exact hr.drained ha
  · exact .inl (hw.owner (ht.lead ha).1)

/-! ## Elections -/

/-- A new leader has proposed what was waiting and executed what became ready. -/
theorem rested_takeOver (ht : Tidy t.toReplica) (ha : t.active = false)
    (ho : t.ballot.owner = some t.id) (hq : t.quorums.phase1Reached t.promises = true)
    (h : t.takeOver = .ok t') : Rested t'.toReplica ∧ t'.ballot.owner = some t'.id := by
  have hlead : Move t.toReplica .elect t { t with active := true } := .lead ha ho hq
  obtain ⟨t₁, t₂, -, -, h₃, hw₁, hw₂, hw₃⟩ := takeOver_eq_ok t.toReplica .elect ha ho h
  have hempty : Move t.toReplica .elect t₁ { t₁ with pending := [] } := .dequeue hw₁.active
  have ho₂ : t₂.ballot.owner = some t₂.id := hw₂.owner (hw₁.owner ho)
  have ht₂ := hw₂.tidy ((hw₁.tidy (ht.move hlead)).move hempty)
  exact ⟨rested_executeReady ht₂.bounded (fun _ => hw₂.pending) (fun _ => .inl ho₂) h₃,
    hw₃.owner ho₂⟩

theorem tidy_countPromises (ht : Tidy t.toReplica) (ha : t.active = false)
    (ho : t.ballot.owner = some t.id) (h : t.countPromises = .ok t') : Tidy t'.toReplica := by
  have hc : Carries t.toReplica .elect (t, []) (t', []) := carries_countPromises ha ha ho h
  exact ht.moves hc.moves

/-- A candidate, or the leader that it becomes. A promise can leave a chosen entry at the cursor. -/
theorem drained_countPromises (ht : Tidy t.toReplica) (ha : t.active = false)
    (ho : t.ballot.owner = some t.id) (h : t.countPromises = .ok t') :
    (t'.active = true → t'.pending = []) ∧ t'.ballot.owner = some t'.id := by
  unfold countPromises at h
  split at h
  · rename_i hq
    obtain ⟨hr, ho'⟩ := rested_takeOver ht ha ho hq h
    exact ⟨hr.drained, ho'⟩
  · cases h
    exact ⟨fun hact => absurd (ha.symm.trans hact) (by simp), ho⟩

theorem rested_countPromises (ht : Tidy t.toReplica) (hidle : t.log.Idle)
    (ha : t.active = false) (ho : t.ballot.owner = some t.id) (h : t.countPromises = .ok t') :
    Rested t'.toReplica ∧ t'.ballot.owner = some t'.id := by
  unfold countPromises at h
  split at h
  · rename_i hq; exact rested_takeOver ht ha ho hq h
  · cases h
    exact ⟨⟨hidle, fun hact => absurd (ha.symm.trans hact) (by simp), fun _ => .inl ho⟩, ho⟩

/-- A replica that starts an election leads or tries to. Its queue may hold anything meanwhile. -/
theorem rested_elect (ht : Tidy t.toReplica) (hidle : t.log.Idle)
    (hd : t.active = true → t.pending = []) (h : t.elect = .ok t') :
    Rested t'.toReplica ∧ t'.ballot.owner = some t'.id := by
  unfold elect at h
  split at h
  · rename_i ha
    cases h
    have ho := (ht.lead ha).1
    exact ⟨⟨hidle, hd, fun _ => .inl ho⟩, ho⟩
  · rename_i ha
    rw [Bool.not_eq_true] at ha
    obtain ⟨ballot, hn, h⟩ := bind_eq_ok.mp h
    have hmove : Move t.toReplica .elect t _ := .elect ballot rfl ha hn (by simp) rfl
    exact rested_countPromises (ht.move hmove) hidle ha (Ballot.owner_of_next hn) h

theorem rested_onRequest {request : ClientRequest} (ht : Tidy t.toReplica)
    (hr : Rested t.toReplica) (h : t.onRequest request = .ok t') : Rested t'.toReplica := by
  unfold onRequest at h
  split at h
  · rename_i ha; exact rested_propose ht ha hr h
  · rename_i ha
    rw [Bool.not_eq_true] at ha
    have hmove : Move t.toReplica (.request request) t
        { t with pending := t.pending ++ [request] } := .enqueue request rfl ha
    have hinactive : t.active = true → t.pending ++ [request] = [] := fun hact =>
      absurd (ha.symm.trans hact) (by simp)
    simp only at h
    split at h
    · rename_i ho
      rw [Ballot.isOwnedBy_iff] at ho
      cases h
      exact ⟨hr.idle, hinactive, fun _ => .inl ho⟩
    · exact (rested_elect (t := { t with pending := t.pending ++ [request] })
        (ht.move hmove) hr.idle hinactive h).1

theorem rested_onBackoffElapsed (ht : Tidy t.toReplica) (hr : Rested t.toReplica)
    (h : t.onBackoffElapsed = .ok t') : Rested t'.toReplica := by
  obtain ⟨t₁, h₁, rfl⟩ := map_eq_ok.mp h
  obtain ⟨hr₁, ho₁⟩ := rested_elect ht hr.idle hr.drained h₁
  exact ⟨hr₁.idle, hr₁.drained, fun _ => .inl ho₁⟩

/-! ## Backing off -/

omit [StateMachine σ] in
/-- Afterwards another election is scheduled. -/
theorem inFlight_of_scheduleBackoff (h : t.scheduleBackoff = .ok t') :
    t'.backoff.inFlight = true := by
  rcases scheduleBackoff_cases h with ⟨hflight, rfl⟩ | ⟨-, _, _, rfl⟩
  · exact hflight
  · rfl

omit [StateMachine σ] in
/-- A replica that was superseded schedules another election if it needs one. -/
theorem rested_preempted {b : Ballot} (hidle : t.log.Idle)
    (h : ({ t with ballot := b, active := false } : Turn ρ σ).scheduleBackoffIfNeeded = .ok t') :
    Rested t'.toReplica := by
  unfold scheduleBackoffIfNeeded at h
  split at h
  · have hflight := inFlight_of_scheduleBackoff h
    obtain ⟨_, _, _, rfl, -⟩ := scheduleBackoff_eq_ok h
    exact ⟨hidle, fun hact => (nomatch hact), fun _ => .inr hflight⟩
  · rename_i hwork
    cases h
    exact ⟨hidle, fun hact => (nomatch hact), fun hw => absurd hw hwork⟩

omit [StateMachine σ] in
theorem rested_follow {b : Ballot} (hr : Rested t.toReplica) (h : t.follow b = .ok t') :
    Rested t'.toReplica := by
  unfold follow at h
  split at h
  · rename_i hlt
    rw [observeBallot_of_lt hlt] at h
    exact rested_preempted hr.idle h
  · cases h; exact hr

/-! ## Messages -/

omit [StateMachine σ] in
theorem rested_onPrepare {m : Prepare} (hr : Rested t.toReplica) (h : t.onPrepare m = .ok t') :
    Rested t'.toReplica := by
  unfold onPrepare at h
  split at h
  · cases h; exact hr
  · obtain ⟨t₁, h₁, h₂⟩ := bind_eq_ok.mp h
    cases h₂
    have hr₁ := rested_follow hr h₁
    exact hr₁

omit [StateMachine σ] in
theorem rested_onAccept {m : Accept} (hr : Rested t.toReplica) (h : t.onAccept m = .ok t') :
    Rested t'.toReplica := by
  cases onAccept_eq_ok h with
  | ignored h => subst h; exact hr
  | refused proposer ho hlt h => subst h; exact hr
  | voted proposer t₁ log displaced ho hle h₁ hvote h =>
    subst h
    have hr₁ := rested_follow hr h₁
    have hj := Log.joined_vote hvote
    refine ⟨hr₁.idle.vote hj, hr₁.drained, fun hwork => hr₁.armed ?_⟩
    exact hasOutstandingWork_iff.mpr ((hasOutstandingWork_iff.mp hwork).imp_right
      hj.lightens.hasOwnedUncommitted)

theorem rested_onPromise {m : Promise} (ht : Tidy t.toReplica) (hr : Rested t.toReplica)
    (h : t.onPromise m = .ok t') : Rested t'.toReplica := by
  cases onPromise_eq_ok h with
  | ignored hn h => subst h; exact hr
  | superseded log displaced t₁ ha hlt hmerge h₁ h₂ =>
    have hbounded : log.Bounded := ht.bounded.merged (Log.merged_merge hmerge)
    have hflight := inFlight_of_scheduleBackoff h₁
    obtain ⟨_, _, _, rfl, -⟩ := scheduleBackoff_eq_ok h₁
    refine rested_executeReady hbounded (fun hact => ?_) (fun _ => .inr hflight) h₂
    cases hact
  | counted log displaced t₁ ha hm ho hmerge h₁ h₂ =>
    have hmove : Move t.toReplica (.message (.promise m)) t _ :=
      .countPromise m log displaced rfl rfl ha hm ho hmerge
    have ht₁ := tidy_countPromises (ht.move hmove) ha ho h₁
    obtain ⟨hd₁, ho₁⟩ := drained_countPromises (ht.move hmove) ha ho h₁
    exact rested_executeReady ht₁.bounded hd₁ (fun _ => .inl ho₁) h₂
  | reported log displaced ha hm ho hmerge h =>
    have hmerged := Log.merged_merge hmerge
    refine rested_executeReady (t := t.withLog log displaced) (ht.bounded.merged hmerged)
      hr.drained (fun hwork => hr.armed ?_) h
    exact hasOutstandingWork_iff.mpr ((hasOutstandingWork_iff.mp hwork).imp_right
      hmerged.lightens.hasOwnedUncommitted)

theorem rested_onAccepted {m : Accepted} (ht : Tidy t.toReplica) (hr : Rested t.toReplica)
    (h : t.onAccepted m = .ok t') : Rested t'.toReplica := by
  cases onAccepted_eq_ok h with
  | ignored h => subst h; exact hr
  | superseded hlt h => exact rested_follow hr h
  | counted e he hc hb hm ho h =>
    have hw : Works t.toReplica (.message (.accepted m)) [] _ t' := works_counted hb ho h
    have hidle : (t.log.set m.slot (e.ack m.sender)).Idle := hr.idle.set _ hc
    refine ⟨idle_countVotes (ht.bounded.set he _) hidle h, fun hact => ?_,
      fun _ => .inl (hw.owner ho)⟩
    rw [hw.pending]
    exact hr.drained (hw.active.symm.trans hact)

theorem rested_onCommit {m : Commit} (ht : Tidy t.toReplica) (hr : Rested t.toReplica)
    (h : t.onCommit m = .ok t') : Rested t'.toReplica := by
  unfold onCommit at h
  split at h
  · cases h; exact hr
  · obtain ⟨⟨log, displaced⟩, hlearn, h⟩ := bind_eq_ok.mp h
    have hj := Log.joined_learn hlearn
    refine rested_executeReady (t := t.withLog log displaced.toList) (ht.bounded.joined hj)
      hr.drained (fun hwork => hr.armed ?_) h
    exact hasOutstandingWork_iff.mpr ((hasOutstandingWork_iff.mp hwork).imp_right
      hj.lightens.hasOwnedUncommitted)

end Turn

/-- **A step leaves nothing lying.** -/
theorem rested_of_step {r r' : Replica ρ σ} {now : Duration} {input : Input}
    {effects : List Effect} (ht : Tidy r) (hr : Rested r)
    (h : r.step now input = .ok (r', effects)) : Rested r' := by
  obtain ⟨t, ht', heq⟩ := map_eq_ok.mp h
  cases heq
  cases input with
  | request request => exact Turn.rested_onRequest ht hr ht'
  | elect => exact (Turn.rested_elect ht hr.idle hr.drained ht').1
  | backoffElapsed => exact Turn.rested_onBackoffElapsed ht hr ht'
  | message m =>
    cases m with
    | prepare m => exact Turn.rested_onPrepare hr ht'
    | promise m => exact Turn.rested_onPromise ht hr ht'
    | accept m => exact Turn.rested_onAccept hr ht'
    | accepted m => exact Turn.rested_onAccepted ht hr ht'
    | commit m => exact Turn.rested_onCommit ht hr ht'

end PaxosLog
