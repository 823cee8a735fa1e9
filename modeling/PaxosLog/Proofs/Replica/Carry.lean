import PaxosLog.Proofs.Replica.Change

/-!
# Requests during a step

While a replica handles an input it has requests in hand: the one that the input brings, and those
that it takes from its queue to propose them. `Carry` is a move together with what it does to the
hand: a request goes from the hand into the queue or into a new entry, and the queue goes into the
hand. No other move touches a request except through the log.

* **`carries_of_step`**: every step that does not fault is a sequence of such moves, from the
  request of the input in hand to an empty hand.
* **`moves_of_step`**: in particular it is a sequence of moves.
-/

namespace PaxosLog

open Relation (ReflTransGen)

/-- The request that an input brings. -/
def Input.requests : Input → List ClientRequest
  | .request r => [r]
  | _ => []

/-- The queue stays, and no new entry owns a request. -/
structure Turn.Still {ρ σ : Type} (t t' : Turn ρ σ) : Prop where
  pending : t'.pending = t.pending
  log : t.log.AddsUnowned t'.log

section Carries

variable {ρ σ : Type} [RandomSource ρ] [StateMachine σ]

/-- The moves of a replica that handles `input`, with the requests in hand. -/
inductive Carry (before : Replica ρ σ) (input : Input) :
    Turn ρ σ × List ClientRequest → Turn ρ σ × List ClientRequest → Prop
  /-- The request in hand joins the queue. -/
  | enqueue (t : Turn ρ σ) (request : ClientRequest) (hand : List ClientRequest)
      (hi : input = .request request) (ha : t.active = false) :
      Carry before input (t, request :: hand)
        ({ t with pending := t.pending ++ [request] }, hand)
  /-- The queue is taken. -/
  | dequeue (t : Turn ρ σ) (hand : List ClientRequest) (ha : t.active = true) :
      Carry before input (t, hand) ({ t with pending := [] }, t.pending ++ hand)
  /-- The request in hand is proposed at the slot after the highest one. No request waits in the
  queue meanwhile, or the replica leads since before. -/
  | offer (t : Turn ρ σ) (s : Slot) (request : ClientRequest) (hand : List ClientRequest)
      (ha : t.active = true) (hs : t.log.get? s = none) (hnext : t.log.highestSlot.next = .ok s)
      (hqueue : before.active = true ∨ t.pending = []) :
      Carry before input (t, request :: hand)
        (Turn.emit
          { t with
            log := (t.log.observe s).set s <|
              .proposal t.ballot (.client request.command) (some request) t.id t.now }
          (.broadcast (.accept ⟨t.ballot, s, .client request.command⟩)), hand)
  /-- Anything else. -/
  | other (t t' : Turn ρ σ) (hand : List ClientRequest) (h : Move before input t t')
      (hstill : t.Still t') : Carry before input (t, hand) (t', hand)

/-- Moves one after another, with the requests in hand. -/
abbrev Carries (before : Replica ρ σ) (input : Input) :
    Turn ρ σ × List ClientRequest → Turn ρ σ × List ClientRequest → Prop :=
  ReflTransGen (Carry before input)

variable {before : Replica ρ σ} {input : Input}

theorem Carry.move {c c' : Turn ρ σ × List ClientRequest} (h : Carry before input c c') :
    Move before input c.1 c'.1 := by
  cases h with
  | enqueue t request hand hi ha => exact .enqueue request hi ha
  | dequeue t hand ha => exact .dequeue ha
  | offer t s request hand ha hs hnext hqueue =>
    exact .offer s _ (some request) ha hs rfl (by simp) fun _ => hnext
  | other t t' hand h hstill => exact h

theorem Carries.moves {c c' : Turn ρ σ × List ClientRequest} (h : Carries before input c c') :
    Moves before input c.1 c'.1 :=
  h.lift Prod.fst fun _ _ => Carry.move

variable {t t' : Turn ρ σ}

/-- A move that leaves the queue and the log alone. -/
theorem Carry.other_of_eq {hand : List ClientRequest} (h : Move before input t t')
    (hp : t'.pending = t.pending) (hlog : t'.log = t.log) :
    Carry before input (t, hand) (t', hand) :=
  .other t t' hand h ⟨hp, hlog ▸ t.log.addsUnowned_refl⟩

/-- A move that replaces an entry. -/
theorem Carry.other_of_set {hand : List ClientRequest} {s : Slot} {e₀ e : LogEntry}
    (h : Move before input t t') (hp : t'.pending = t.pending) (hs : t.log.get? s = some e₀)
    (hlog : t'.log = t.log.set s e) : Carry before input (t, hand) (t', hand) :=
  .other t t' hand h ⟨hp, hlog ▸ Log.addsUnowned_set hs e⟩

/-- Moves that use up the requests `supply` and touch nothing but the log and the state machine:
the work of a learner and of a proposer in office. -/
structure Works (before : Replica ρ σ) (input : Input) (supply : List ClientRequest)
    (t t' : Turn ρ σ) : Prop where
  carries : ∀ hand, Carries before input (t, supply ++ hand) (t', hand)
  rest : t'.toReplica = { t.toReplica with log := t'.log, machine := t'.machine }

namespace Works

variable {supply : List ClientRequest}

theorem refl (t : Turn ρ σ) : Works before input [] t t := ⟨fun _ => .refl, rfl⟩

theorem single (h : Move before input t t') (hlog : t.log.AddsUnowned t'.log)
    (hrest : t'.toReplica = { t.toReplica with log := t'.log, machine := t'.machine }) :
    Works before input [] t t' where
  carries hand := .single (.other t t' hand h ⟨by rw [hrest], hlog⟩)
  rest := hrest

theorem trans {supply' : List ClientRequest} {t₁ t₂ t₃ : Turn ρ σ}
    (h : Works before input supply t₁ t₂) (h' : Works before input supply' t₂ t₃) :
    Works before input (supply ++ supply') t₁ t₃ where
  carries hand := by
    rw [List.append_assoc]
    exact (h.carries _).trans (h'.carries hand)
  rest := by rw [h'.rest, h.rest]

theorem active (h : Works before input supply t t') : t'.active = t.active := by
  rw [h.rest]

theorem pending (h : Works before input supply t t') : t'.pending = t.pending := by
  rw [h.rest]

theorem promises (h : Works before input supply t t') : t'.promises = t.promises := by
  rw [h.rest]

/-- The owner of the ballot stays. -/
theorem owner (h : Works before input supply t t') (ho : t.ballot.owner = some t.id) :
    t'.ballot.owner = some t'.id := by
  rw [h.rest, ho]

theorem highestSlot_le (h : Works before input supply t t') :
    t.log.highestSlot ≤ t'.log.highestSlot :=
  Move.moves_highestSlot_le (h.carries []).moves

end Works

namespace Turn

/-! ## Executing and choosing -/

theorem works_executeEntry {e : LogEntry} (he : t.log.get? t.log.executeCursor = some e)
    (hc : e.isCommitted = true) (h : t.executeEntry e = .ok t') : Works before input [] t t' := by
  have hmove : Move before input t t' := .execute t' e he hc h
  obtain ⟨_, _, _, -, rfl, -⟩ := executeEntry_eq_ok h
  exact .single hmove (Log.addsUnowned_set he _) rfl

theorem works_executeUpTo {count : Nat} (h : t.executeUpTo count = .ok t') :
    Works before input [] t t' := by
  induction count generalizing t with
  | zero => cases h; exact .refl _
  | succ count ih =>
    unfold executeUpTo at h
    split at h
    · cases h; exact .refl _
    · rename_i e he
      split at h
      · rename_i hc
        obtain ⟨t₁, h₁, h₂⟩ := bind_eq_ok.mp h
        exact (works_executeEntry he hc h₁).trans (ih h₂)
      · cases h; exact .refl _

theorem works_executeReady (h : t.executeReady = .ok t') : Works before input [] t t' :=
  works_executeUpTo h

/-- Announcing a choice. -/
theorem works_choose {s : Slot} {e : LogEntry} (ho : t.ballot.owner = some t.id)
    (he : t.log.get? s = some e) (hc : e.isCommitted = false) (hb : e.ballot = t.ballot)
    (hq : t.quorums.phase2Reached e.acks = true) :
    Works before input [] t ({ t with log := t.log.set s e.commit }.emit
      (.broadcast (.commit ⟨e.ballot, s, e.command⟩))) :=
  .single (.choose s e ho he hc hb hq) (Log.addsUnowned_set he _) rfl

/-- Counting the votes for an own proposal. -/
theorem works_countVotes {s : Slot} (ho : t.ballot.owner = some t.id)
    (hb : ∀ e, t.log.get? s = some e → e.isCommitted = false → e.ballot = t.ballot)
    (h : t.countVotes s = .ok t') : Works before input [] t t' := by
  unfold countVotes at h
  split at h
  · cases h; exact .refl _
  · rename_i e he
    split at h
    · rename_i hq
      rw [Bool.and_eq_true, Bool.not_eq_true'] at hq
      exact (works_choose ho he hq.1 (hb e he hq.1) hq.2).trans (works_executeReady h)
    · cases h; exact .refl _

/-! ## Proposing -/

/-- A new proposal takes the request that it owns out of the hand. -/
theorem works_ask (s : Slot) (r : Option ClientRequest) (command : Command)
    (ha : t.active = true) (hs : t.log.get? s = none)
    (hc : command = (r.map fun r => Command.client r.command).getD .noop)
    (hgap : r = none → s ≤ t.log.highestSlot)
    (hnext : r ≠ none → t.log.highestSlot.next = .ok s ∧
      (before.active = true ∨ t.pending = [])) :
    Works before input r.toList t
      (emit { t with log := (t.log.observe s).set s <| .proposal t.ballot command r t.id t.now }
        (.broadcast (.accept ⟨t.ballot, s, command⟩))) := by
  subst hc
  cases r with
  | none =>
    refine .single (.offer s .noop none ha hs rfl hgap (by simp)) (fun u e hu he => ?_) rfl
    simp only [emit, Log.get?_set, Log.get?_observe, hu] at he
    split at he
    · cases he; rfl
    · cases he
  | some r =>
    obtain ⟨hslot, hqueue⟩ := hnext (by simp)
    exact ⟨fun hand => .single (.offer t s r hand ha hs hslot hqueue), rfl⟩

/-- Asking for votes for a new proposal and counting the own one. -/
theorem works_offer {s : Slot} {r : Option ClientRequest} {command : Command}
    (ha : t.active = true) (ho : t.ballot.owner = some t.id) (hs : t.log.get? s = none)
    (hc : command = (r.map fun r => Command.client r.command).getD .noop)
    (hgap : r = none → s ≤ t.log.highestSlot)
    (hnext : r ≠ none → t.log.highestSlot.next = .ok s ∧ (before.active = true ∨ t.pending = []))
    (h : askForVotes { t with
        log := (t.log.observe s).set s <| .proposal t.ballot command r t.id t.now }
      s command = .ok t') :
    Works before input r.toList t t' := by
  rw [← List.append_nil r.toList]
  refine (works_ask s r command ha hs hc hgap hnext).trans
    (works_countVotes ho (fun e he _ => ?_) h)
  rw [emit, Log.get?_set, if_pos rfl] at he
  cases he
  rfl

theorem works_propose {request : ClientRequest} (ho : t.ballot.owner = some t.id)
    (hqueue : t.active = true → before.active = true ∨ t.pending = [])
    (h : t.propose request = .ok t') : Works before input [request] t t' := by
  obtain ⟨s, ha, -, hnext, hs, h⟩ := propose_eq_ok h
  exact works_offer (r := some request) ha ho hs rfl (by simp) (fun _ => ⟨hnext, hqueue ha⟩) h

theorem works_proposeAll {requests : List ClientRequest} (ho : t.ballot.owner = some t.id)
    (hqueue : t.active = true → before.active = true ∨ t.pending = [])
    (h : requests.foldlM propose t = .ok t') : Works before input requests t t' := by
  induction requests generalizing t with
  | nil => cases h; exact .refl _
  | cons request requests ih =>
    rw [List.foldlM_cons] at h
    obtain ⟨t₁, h₁, h₂⟩ := bind_eq_ok.mp h
    have hw : Works before input [request] t t₁ := works_propose ho hqueue h₁
    refine hw.trans (ih (hw.owner ho) (fun ha => ?_) h₂)
    rw [hw.pending]
    exact hqueue (hw.active.symm.trans ha)

/-- A vote that is proposed again. -/
theorem works_reopen {s : Slot} {e : LogEntry} (hnew : before.active = false)
    (ha : t.active = true) (hs : t.log.get? s = some e) (hc : e.isCommitted = false) :
    Works before input [] t (emit { t with log := t.log.set s (e.reopened t.ballot t.id t.now) }
      (.broadcast (.accept ⟨t.ballot, s, e.command⟩))) :=
  .single (.offerAgain s e ha hs hc hnew) (Log.addsUnowned_set hs _) rfl

theorem works_repropose {s : Slot} (hnew : before.active = false) (ha : t.active = true)
    (ho : t.ballot.owner = some t.id) (hle : s ≤ t.log.highestSlot) (h : t.repropose s = .ok t') :
    Works before input [] t t' := by
  unfold repropose at h
  split at h
  · rename_i hs
    obtain ⟨log, hinsert, h⟩ := bind_eq_ok.mp h
    obtain ⟨-, rfl⟩ := Log.insert_eq_ok hinsert
    exact works_offer (r := none) ha ho hs rfl (fun _ => hle) (by simp) h
  · rename_i e hs
    split at h
    · cases h; exact .refl _
    · rename_i hc
      obtain ⟨e', he', h⟩ := bind_eq_ok.mp h
      rw [LogEntry.repropose, if_neg hc] at he'
      cases he'
      refine (works_reopen hnew ha hs (Bool.eq_false_iff.mpr hc)).trans
        (works_countVotes ho (fun e he _ => ?_) h)
      rw [emit, Log.get?_set, if_pos rfl] at he
      cases he
      rfl

/-- The slots that are proposed again are up to the highest one. -/
theorem works_reproposeFrom {count : Nat} {s : Slot} (hnew : before.active = false)
    (ha : t.active = true) (ho : t.ballot.owner = some t.id)
    (hcount : count ≤ t.log.highestSlot.toNat + 1 - s.toNat)
    (h : t.reproposeFrom count s = .ok t') : Works before input [] t t' := by
  induction count generalizing t s with
  | zero => cases h; exact .refl _
  | succ count ih =>
    unfold reproposeFrom at h
    obtain ⟨t₁, h₁, h⟩ := bind_eq_ok.mp h
    obtain ⟨s', hs', h₂⟩ := bind_eq_ok.mp h
    have hw : Works before input [] t t₁ :=
      works_repropose hnew ha ho (UInt64.le_iff_toNat_le.mpr (by omega)) h₁
    have hnext := toNat_of_checkedSucc hs'
    have hkept := UInt64.le_iff_toNat_le.mp hw.highestSlot_le
    exact hw.trans (ih (hw.active.trans ha) (hw.owner ho) (by omega) h₂)

/-! ## Elections -/

variable {hand : List ClientRequest}

variable (before input) in
/-- **What a new leader does**: it proposes the slots of its log again, then its queue, and runs
what is chosen. -/
theorem takeOver_eq_ok (hnew : before.active = false) (ho : t.ballot.owner = some t.id)
    (h : t.takeOver = .ok t') :
    ∃ t₁ t₂ : Turn ρ σ,
      ({ t with active := true } : Turn ρ σ).reproposeFrom t.log.span t.log.executeCursor = .ok t₁ ∧
      t₁.pending.foldlM propose { t₁ with pending := [] } = .ok t₂ ∧ t₂.executeReady = .ok t' ∧
      Works before input [] { t with active := true } t₁ ∧
      Works before input t₁.pending { t₁ with pending := [] } t₂ ∧
      Works before input [] t₂ t' := by
  unfold takeOver at h
  obtain ⟨t₁, h₁, h⟩ := bind_eq_ok.mp h
  obtain ⟨t₂, h₂, h₃⟩ := bind_eq_ok.mp h
  have hw₁ : Works before input [] { t with active := true } t₁ :=
    works_reproposeFrom hnew rfl ho (Nat.le_refl _) h₁
  exact ⟨t₁, t₂, h₁, h₂, h₃, hw₁, works_proposeAll (hw₁.owner ho) (fun _ => .inr rfl) h₂,
    works_executeReady h₃⟩

theorem carries_takeOver (hnew : before.active = false) (ha : t.active = false)
    (ho : t.ballot.owner = some t.id) (hq : t.quorums.phase1Reached t.promises = true)
    (h : t.takeOver = .ok t') : Carries before input (t, hand) (t', hand) := by
  obtain ⟨t₁, t₂, -, -, -, hw₁, hw₂, hw₃⟩ := takeOver_eq_ok before input hnew ho h
  exact .trans (.single (.other_of_eq (.lead ha ho hq) rfl rfl)) (.trans (hw₁.carries hand)
    (.trans (.single (.dequeue t₁ hand hw₁.active)) (.trans (hw₂.carries hand)
      (hw₃.carries hand))))

theorem carries_countPromises (hnew : before.active = false) (ha : t.active = false)
    (ho : t.ballot.owner = some t.id) (h : t.countPromises = .ok t') :
    Carries before input (t, hand) (t', hand) := by
  unfold countPromises at h
  split at h
  · rename_i hq; exact carries_takeOver hnew ha ho hq h
  · cases h; exact .refl

theorem carries_elect (hi : ∀ m, input ≠ .message m) (hlog : t.log = before.log)
    (hb : t.ballot = before.ballot) (hactive : t.active = before.active) (h : t.elect = .ok t') :
    Carries before input (t, hand) (t', hand) := by
  unfold elect at h
  split at h
  · cases h; exact .refl
  · rename_i ha
    rw [Bool.not_eq_true] at ha
    obtain ⟨ballot, hn, h⟩ := bind_eq_ok.mp h
    exact .trans (.single (.other_of_eq (.elect ballot hlog ha hn hi hb) rfl rfl))
      (carries_countPromises (hactive ▸ ha) ha (Ballot.owner_of_next hn) h)

theorem carries_onRequest {request : ClientRequest} (hi : input = .request request)
    (hlog : t.log = before.log) (hb : t.ballot = before.ballot) (hactive : t.active = before.active)
    (ho : t.active = true → t.ballot.owner = some t.id) (h : t.onRequest request = .ok t') :
    Carries before input (t, request :: hand) (t', hand) := by
  unfold onRequest at h
  split at h
  · rename_i ha
    exact (works_propose (ho ha) (fun ha => .inl (hactive ▸ ha)) h).carries hand
  · rename_i ha
    rw [Bool.not_eq_true] at ha
    have hcarry : Carry before input (t, request :: hand) _ := .enqueue t request hand hi ha
    simp only at h
    split at h
    · cases h; exact .single hcarry
    · exact .trans (.single hcarry)
        (carries_elect (t := { t with pending := t.pending ++ [request] }) (by simp [hi]) hlog hb
          hactive h)

theorem carries_onBackoffElapsed (hi : input = .backoffElapsed) (hlog : t.log = before.log)
    (hb : t.ballot = before.ballot) (hactive : t.active = before.active)
    (h : t.onBackoffElapsed = .ok t') : Carries before input (t, hand) (t', hand) := by
  obtain ⟨t₁, h₁, rfl⟩ := map_eq_ok.mp h
  exact .trans (carries_elect (by simp [hi]) hlog hb hactive h₁)
    (.single (.other_of_eq (.fired hi) rfl rfl))

theorem carry_scheduleBackoff (hwhy : Superseded before input t)
    (h : t.scheduleBackoff = .ok t') : Carry before input (t, hand) (t', hand) := by
  have hmove : Move before input t t' := .backOff _ h hwhy
  obtain ⟨_, _, _, rfl, -⟩ := scheduleBackoff_eq_ok h
  exact .other_of_eq hmove rfl rfl

theorem carries_scheduleBackoffIfNeeded {m : Message} (hi : input = .message m)
    (hlt : before.ballot < m.ballot) (h : t.scheduleBackoffIfNeeded = .ok t') :
    Carries before input (t, hand) (t', hand) := by
  unfold scheduleBackoffIfNeeded at h
  split at h
  · rename_i hwork
    exact .single (carry_scheduleBackoff ⟨m, hi, hlt, .inl hwork⟩ h)
  · cases h; exact .refl

theorem carries_follow {m : Message} (hi : input = .message m) (hm : ∀ c, m ≠ .commit c)
    (hstart : t.toReplica = before) (h : t.follow m.ballot = .ok t') :
    Carries before input (t, hand) (t', hand) := by
  unfold follow at h
  split at h
  · rename_i hlt
    rw [observeBallot_of_lt hlt] at h
    exact .trans (.single (.other_of_eq (.follow m hi hm hlt) rfl rfl))
      (carries_scheduleBackoffIfNeeded hi (hstart ▸ hlt) h)
  · cases h; exact .refl

/-- **A promise that is not ignored** is folded in first; what follows works on the outcome. -/
theorem merged_onPromise {m : Promise} (hi : input = .message (.promise m))
    (hstart : t.toReplica = before) (ha : t.active = false) (hle : t.ballot ≤ m.ballot)
    (h : t.onPromise m = .ok t') : ∃ t₁ : Turn ρ σ, Log.Merged t.log t₁.log m.log ∧
      ∀ hand, Carry before input (t, hand) (t₁, hand) ∧
        Carries before input (t₁, hand) (t', hand) := by
  cases onPromise_eq_ok h with
  | ignored hn h =>
    rcases hn with hact | hlt
    · exact absurd (ha.symm.trans hact) (by simp)
    · exact absurd (Std.lt_of_lt_of_le hlt hle) Std.lt_irrefl
  | superseded log displaced t₁ ha hlt hmerge h₁ h₂ =>
    have hmerged := Log.merged_merge hmerge
    have hmove : Move before input t _ :=
      .report m log displaced hi ha (Std.le_of_lt hlt) (.inl hlt) hmerge
    refine ⟨_, hmerged, fun hand => ⟨.other _ _ hand hmove ⟨rfl, hmerged.addsUnowned⟩,
      .trans (.single (carry_scheduleBackoff ⟨_, hi, hstart ▸ hlt, .inr ⟨m, rfl⟩⟩ ?_))
        ((works_executeReady h₂).carries hand)⟩⟩
    simpa [withLog, emitAll, ha] using h₁
  | counted log displaced t₁ ha hm ho hmerge h₁ h₂ =>
    have hmerged := Log.merged_merge hmerge
    have hmove : Move before input t _ :=
      .countPromise m log displaced hi hstart ha hm ho hmerge
    exact ⟨_, hmerged, fun hand => ⟨.other _ _ hand hmove ⟨rfl, hmerged.addsUnowned⟩,
      .trans (carries_countPromises (hstart ▸ ha) ha ho h₁)
        ((works_executeReady h₂).carries hand)⟩⟩
  | reported log displaced ha hm ho hmerge h =>
    have hmerged := Log.merged_merge hmerge
    have hmove : Move before input t _ :=
      .report m log displaced hi ha (hm ▸ Std.le_refl _) (.inr (hm ▸ ho)) hmerge
    rw [hm] at hmove
    exact ⟨_, hmerged, fun hand => ⟨.other _ _ hand hmove ⟨rfl, hmerged.addsUnowned⟩,
      (works_executeReady h).carries hand⟩⟩

theorem carries_onPromise {m : Promise} (hi : input = .message (.promise m))
    (hstart : t.toReplica = before) (h : t.onPromise m = .ok t') :
    Carries before input (t, hand) (t', hand) := by
  by_cases hn : t.active = true ∨ m.ballot < t.ballot
  · rw [onPromise, if_pos hn] at h
    cases h
    exact .refl
  · obtain ⟨ha, hle⟩ := not_or.mp hn
    obtain ⟨t₁, -, hcarries⟩ :=
      merged_onPromise hi hstart (Bool.eq_false_iff.mpr ha) (Ballot.not_lt.mp hle) h
    exact .head (hcarries hand).1 (hcarries hand).2

/-- The vote that was counted may be the one that was missing. -/
theorem works_counted {m : Accepted} {e : LogEntry} (hb : e.ballot = t.ballot)
    (ho : t.ballot.owner = some t.id)
    (h : ({ t with log := t.log.set m.slot (e.ack m.sender) } : Turn ρ σ).countVotes m.slot =
      .ok t') :
    Works before input [] { t with log := t.log.set m.slot (e.ack m.sender) } t' := by
  refine works_countVotes (t := { t with log := t.log.set m.slot (e.ack m.sender) }) ho
    (fun e' he' _ => ?_) h
  rw [Log.get?_set, if_pos rfl] at he'
  cases he'
  exact hb

theorem carries_onAccepted {m : Accepted} (hi : input = .message (.accepted m))
    (hstart : t.toReplica = before) (h : t.onAccepted m = .ok t') :
    Carries before input (t, hand) (t', hand) := by
  cases onAccepted_eq_ok h with
  | ignored h => subst h; exact .refl
  | superseded hlt h => exact carries_follow (m := .accepted m) hi (by simp) hstart h
  | counted e he hc hb hm ho h =>
    have hmove : Move before input t _ := .countVote m e hi hstart he hc hb hm ho
    exact .trans (.single (.other_of_set hmove rfl he rfl)) ((works_counted hb ho h).carries hand)

/-! ## Promising, voting and learning -/

theorem carries_onPrepare {m : Prepare} (hi : input = .message (.prepare m))
    (hstart : t.toReplica = before) (h : t.onPrepare m = .ok t') :
    Carries before input (t, hand) (t', hand) := by
  unfold onPrepare at h
  split at h
  · cases h; exact .refl
  · rename_i candidate ho
    obtain ⟨t₁, h₁, h₂⟩ := bind_eq_ok.mp h
    cases h₂
    have hmove : Move before input t₁ _ := .answer m candidate hi ho (le_ballot_of_follow h₁)
    exact .trans (carries_follow (m := .prepare m) hi (by simp) hstart h₁)
      (.single (.other_of_eq hmove rfl rfl))

theorem carries_onAccept {m : Accept} (hi : input = .message (.accept m))
    (hstart : t.toReplica = before) (h : t.onAccept m = .ok t') :
    Carries before input (t, hand) (t', hand) := by
  cases onAccept_eq_ok h with
  | ignored h => subst h; exact .refl
  | refused proposer ho hlt h =>
    subst h
    exact .single (.other_of_eq (.refuse m proposer hi hstart ho hlt) rfl rfl)
  | voted proposer t₁ log displaced ho hle h₁ hvote h =>
    subst h
    have hmove : Move before input t₁ _ :=
      .vote m proposer log displaced hi ho (ballot_of_follow hle h₁) hvote
    exact .trans (carries_follow (m := .accept m) hi (by simp) hstart h₁)
      (.single (.other _ _ hand hmove ⟨rfl, (Log.joined_vote hvote).addsUnowned⟩))

theorem carries_onCommit {m : Commit} (hi : input = .message (.commit m))
    (h : t.onCommit m = .ok t') : Carries before input (t, hand) (t', hand) := by
  unfold onCommit at h
  split at h
  · cases h; exact .refl
  · rename_i h0
    obtain ⟨⟨log, displaced⟩, hlearn, h⟩ := bind_eq_ok.mp h
    have hmove : Move before input t _ := .learn m log displaced hi h0 hlearn
    exact .trans (.single (.other _ _ hand hmove ⟨rfl, (Log.joined_learn hlearn).addsUnowned⟩))
      ((works_executeReady h).carries hand)

end Turn

variable {now : Duration} {r r' : Replica ρ σ} {effects : List Effect}

/-- **A step is a sequence of moves, and leaves no request in hand.** -/
theorem carries_of_step (hlead : r.active = true → r.ballot.owner = some r.id)
    (h : r.step now input = .ok (r', effects)) :
    ∃ t : Turn ρ σ, Carries r input ({ r with now, effects := [] }, input.requests) (t, []) ∧
      t.toReplica = r' ∧ t.effects = effects := by
  obtain ⟨t, ht, heq⟩ := map_eq_ok.mp h
  cases heq
  refine ⟨t, ?_, rfl, rfl⟩
  cases input with
  | request request => exact Turn.carries_onRequest rfl rfl rfl rfl hlead ht
  | elect => exact Turn.carries_elect (by simp) rfl rfl rfl ht
  | backoffElapsed => exact Turn.carries_onBackoffElapsed rfl rfl rfl rfl ht
  | message m =>
    cases m with
    | prepare m => exact Turn.carries_onPrepare rfl rfl ht
    | promise m => exact Turn.carries_onPromise rfl rfl ht
    | accept m => exact Turn.carries_onAccept rfl rfl ht
    | accepted m => exact Turn.carries_onAccepted rfl rfl ht
    | commit m => exact Turn.carries_onCommit rfl ht

/-- **A step is a sequence of moves.** -/
theorem moves_of_step (hlead : r.active = true → r.ballot.owner = some r.id)
    (h : r.step now input = .ok (r', effects)) :
    ∃ t, Moves r input { r with now, effects := [] } t ∧ t.toReplica = r' ∧
      t.effects = effects := by
  obtain ⟨t, ht, hr, heff⟩ := carries_of_step hlead h
  exact ⟨t, ht.moves, hr, heff⟩

end Carries

end PaxosLog
