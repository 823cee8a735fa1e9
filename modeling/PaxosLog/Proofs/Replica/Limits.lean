import PaxosLog.Proofs.Replica.Carry
import PaxosLog.Proofs.Replica.Tidy

/-!
# Faults of a tidy replica

A step can end with a fault for several reasons. For a tidy replica only few remain (`Stuck`): a
round or a slot would pass its limit, or no delay can be made for another election. The conditions
that the roles state about each other (a new proposal goes to a free slot, only a leader proposes,
nothing chosen is proposed again) always hold.

**`stops_of_step`**: a step that faults is a sequence of moves that leads to such a limit.
-/

namespace PaxosLog

theorem bind_eq_error {α β : Type} {x : Except Fault α} {g : α → Except Fault β} {f : Fault} :
    x >>= g = .error f ↔ x = .error f ∨ ∃ a, x = .ok a ∧ g a = .error f := by
  cases x with
  | error e =>
    exact ⟨fun h => by cases h; exact .inl rfl,
      fun h => h.elim (fun h => by cases h; rfl) fun ⟨_, h, _⟩ => (nomatch h)⟩
  | ok a =>
    exact ⟨fun h => .inr ⟨a, rfl, h⟩,
      fun h => h.elim (fun h => (nomatch h)) fun ⟨_, h, hg⟩ => by cases h; exact hg⟩

theorem map_eq_error {α β : Type} {x : Except Fault α} {g : α → β} {f : Fault} :
    x.map g = .error f ↔ x = .error f := by
  cases x with
  | error e => exact ⟨fun h => by cases h; rfl, fun h => by cases h; rfl⟩
  | ok a => exact ⟨fun h => (nomatch h), fun h => (nomatch h)⟩

theorem checkedSucc_eq_error {n : UInt64} {f : Fault} (h : checkedSucc n = .error f) :
    n = maxCounter ∧ f = .counterOverflow := by
  unfold checkedSucc at h
  split at h
  · rename_i hn; cases h; exact ⟨hn, rfl⟩
  · cases h

/-! ## Operations that always succeed -/

namespace Log

theorem insert_of_free {log : Log} {s : Slot} (hs : log.get? s = none) (e : LogEntry) {f : Fault} :
    log.insert s e ≠ .error f := by
  rw [insert_of_none hs]
  simp

theorem vote_ne_error (log : Log) (s : Slot) (b : Ballot) (c : Command) (f : Fault) :
    log.vote s b c ≠ .error f := by
  intro h
  unfold vote at h
  simp only at h
  split at h
  · rename_i hs
    exact insert_of_free hs _ (map_eq_error.mp h)
  · split at h
    · cases h
    · rename_i hc
      split at h
      · rw [map_eq_error, LogEntry.overwrite, if_neg hc] at h
        split at h <;> cases h
      · cases h

theorem learn_ne_error (log : Log) (s : Slot) (b : Ballot) (c : Command) (f : Fault) :
    log.learn s b c ≠ .error f := by
  intro h
  unfold learn at h
  simp only at h
  split at h
  · rename_i hs
    exact insert_of_free hs _ (map_eq_error.mp h)
  · split at h
    · cases h
    · rename_i hc
      rw [map_eq_error, LogEntry.overwrite, if_neg hc] at h
      split at h <;> cases h

theorem merge_ne_error (log : Log) (reported : SlotMap PromisedEntry) (f : Fault) :
    log.merge reported ≠ .error f := by
  suffices hlist : ∀ (l : List (Slot × PromisedEntry)) (acc : Log × List ClientRequest),
      l.foldlM adoptNext acc ≠ .error f from hlist _ _
  intro l
  induction l with
  | nil => intro acc h; cases h
  | cons p l ih =>
    intro acc h
    rw [List.foldlM_cons] at h
    rcases bind_eq_error.mp h with h | ⟨acc', -, h⟩
    · rw [adoptNext, map_eq_error, adopt] at h
      split at h
      · cases h
      · split at h
        · exact learn_ne_error _ _ _ _ _ h
        · exact vote_ne_error _ _ _ _ _ h
    · exact ih acc' h

end Log

variable {ρ σ : Type} [RandomSource ρ] [StateMachine σ]

theorem Works.tidy {before : Replica ρ σ} {input : Input} {supply : List ClientRequest}
    {t t' : Turn ρ σ} (h : Works before input supply t t') (ht : Tidy t.toReplica) :
    Tidy t'.toReplica :=
  ht.moves (h.carries []).moves

/-- Why `t` cannot go on, and the fault that this is. -/
inductive Stuck (before : Replica ρ σ) (input : Input) (t : Turn ρ σ) : Fault → Prop
  /-- A candidate needs a round after the last one. -/
  | round (hi : ∀ m, input ≠ .message m) (ha : before.active = false)
      (hb : t.ballot = before.ballot) (h : t.ballot.round = maxCounter) : Stuck before input t .counterOverflow
  /-- A leader needs a slot after the last one. -/
  | slot (ha : t.active = true) (h : t.log.highestSlot = maxCounter) :
      Stuck before input t .counterOverflow
  /-- There is no slot after that of the chosen entry at the cursor. -/
  | cursor (e : LogEntry) (hs : t.log.get? t.log.executeCursor = some e)
      (hc : e.isCommitted = true) (h : t.log.executeCursor = maxCounter) :
      Stuck before input t .counterOverflow
  /-- No delay can be made for another election. -/
  | delay (f : Fault) (hwhy : Superseded before input t)
      (h : (before.backoff.policy.nextDelay before.source).1 = .error f) : Stuck before input t f

/-- Moves lead to where the replica cannot go on. -/
def Stops (before : Replica ρ σ) (input : Input) (c : Turn ρ σ × List ClientRequest) (f : Fault) :
    Prop :=
  ∃ c', Carries before input c c' ∧ Stuck before input c'.1 f

namespace Stops

variable {before : Replica ρ σ} {input : Input} {t t₁ : Turn ρ σ} {hand : List ClientRequest}
  {f : Fault}

theorem here (h : Stuck before input t f) : Stops before input (t, hand) f := ⟨_, .refl, h⟩

theorem carries {c c₁ : Turn ρ σ × List ClientRequest} (h : Carries before input c c₁)
    (hs : Stops before input c₁ f) : Stops before input c f := by
  obtain ⟨c', h', hstuck⟩ := hs
  exact ⟨c', h.trans h', hstuck⟩

theorem works {supply : List ClientRequest} (h : Works before input supply t t₁)
    (hs : Stops before input (t₁, hand) f) : Stops before input (t, supply ++ hand) f :=
  hs.carries (h.carries hand)

end Stops

namespace Turn

variable {before : Replica ρ σ} {input : Input} {t : Turn ρ σ} {hand : List ClientRequest}
  {f : Fault}

/-! ## Executing and choosing -/

theorem stops_executeUpTo {count : Nat} (h : t.executeUpTo count = .error f) :
    Stops before input (t, hand) f := by
  induction count generalizing t with
  | zero => cases h
  | succ count ih =>
    unfold executeUpTo at h
    split at h
    · cases h
    · rename_i e he
      split at h
      · rename_i hc
        rcases bind_eq_error.mp h with h | ⟨t₁, h₁, h⟩
        · obtain ⟨hlast, rfl⟩ := checkedSucc_eq_error (map_eq_error.mp h)
          exact .here (.cursor e he hc hlast)
        · exact .works (works_executeEntry he hc h₁) (ih h)
      · cases h

theorem stops_executeReady (h : t.executeReady = .error f) : Stops before input (t, hand) f :=
  stops_executeUpTo h

theorem stops_countVotes {s : Slot} (ho : t.ballot.owner = some t.id)
    (hb : ∀ e, t.log.get? s = some e → e.isCommitted = false → e.ballot = t.ballot)
    (h : t.countVotes s = .error f) : Stops before input (t, hand) f := by
  unfold countVotes at h
  split at h
  · cases h
  · rename_i e he
    split at h
    · rename_i hq
      rw [Bool.and_eq_true, Bool.not_eq_true'] at hq
      exact .works (works_choose ho he hq.1 (hb e he hq.1) hq.2) (stops_executeReady h)
    · cases h

/-! ## Proposing -/

theorem stops_offer {s : Slot} {r : Option ClientRequest} {command : Command}
    (ha : t.active = true) (ho : t.ballot.owner = some t.id) (hs : t.log.get? s = none)
    (hc : command = (r.map fun r => Command.client r.command).getD .noop)
    (hgap : r = none → s ≤ t.log.highestSlot)
    (hnext : r ≠ none → t.log.highestSlot.next = .ok s ∧ (before.active = true ∨ t.pending = []))
    (h : askForVotes { t with
        log := (t.log.observe s).set s <| .proposal t.ballot command r t.id t.now }
      s command = .error f) :
    Stops before input (t, r.toList ++ hand) f := by
  refine .works (works_ask s r command ha hs hc hgap hnext)
    (stops_countVotes ho (fun e he _ => ?_) h)
  rw [emit, Log.get?_set, if_pos rfl] at he
  cases he
  rfl

theorem stops_propose {request : ClientRequest} (ht : Tidy t.toReplica) (ha : t.active = true)
    (hqueue : before.active = true ∨ t.pending = []) (h : t.propose request = .error f) :
    Stops before input (t, request :: hand) f := by
  unfold propose at h
  rw [if_pos ha] at h
  rcases bind_eq_error.mp h with h | ⟨⟨s, log⟩, hallocate, h⟩
  · obtain ⟨hlast, rfl⟩ := checkedSucc_eq_error (map_eq_error.mp h)
    exact .here (.slot ha hlast)
  · obtain ⟨rfl, hlt, hnext⟩ := Log.allocate_eq_ok hallocate
    -- the slot is above the highest one, and there are no entries
    have hfree : t.log.get? s = none := by
      rw [← Option.not_isSome_iff_eq_none]
      intro hs
      obtain ⟨e, he⟩ := Option.isSome_iff_exists.mp hs
      exact Std.not_le.mpr hlt (ht.bounded s e he)
    simp only [Log.insert_of_none ((t.log.get?_observe s s).trans hfree), Log.observe_observe] at h
    exact stops_offer (r := some request) ha (ht.lead ha).1 hfree rfl (by simp)
      (fun _ => ⟨hnext, hqueue⟩) h

theorem stops_proposeAll {requests : List ClientRequest} (ht : Tidy t.toReplica)
    (ha : t.active = true) (hqueue : before.active = true ∨ t.pending = [])
    (h : requests.foldlM propose t = .error f) : Stops before input (t, requests ++ hand) f := by
  induction requests generalizing t with
  | nil => cases h
  | cons request requests ih =>
    rw [List.foldlM_cons] at h
    rcases bind_eq_error.mp h with h | ⟨t₁, h₁, h⟩
    · exact stops_propose ht ha hqueue h
    · have hw : Works before input [request] t t₁ :=
        works_propose (ht.lead ha).1 (fun _ => hqueue) h₁
      have hqueue₁ : before.active = true ∨ t₁.pending = [] := by
        rw [hw.pending]
        exact hqueue
      have hrest : Stops before input (t₁, requests ++ hand) f :=
        ih (hw.tidy ht) (hw.active.trans ha) hqueue₁ h
      have hall := Stops.works hw hrest
      exact hall

theorem stops_repropose {s : Slot} (hnew : before.active = false) (ha : t.active = true)
    (ho : t.ballot.owner = some t.id) (hle : s ≤ t.log.highestSlot)
    (h : t.repropose s = .error f) : Stops before input (t, hand) f := by
  unfold repropose at h
  split at h
  · rename_i hs
    rw [Log.insert_of_none hs] at h
    exact stops_offer (r := none) ha ho hs rfl (fun _ => hle) (by simp) h
  · rename_i e hs
    split at h
    · cases h
    · rename_i hc
      rw [LogEntry.repropose, if_neg hc] at h
      refine .works (works_reopen hnew ha hs (Bool.eq_false_iff.mpr hc))
        (stops_countVotes ho (fun e he _ => ?_) h)
      rw [emit, Log.get?_set, if_pos rfl] at he
      cases he
      rfl

theorem stops_reproposeFrom {count : Nat} {s : Slot} (hnew : before.active = false)
    (ha : t.active = true) (ho : t.ballot.owner = some t.id)
    (hcount : count ≤ t.log.highestSlot.toNat + 1 - s.toNat)
    (h : t.reproposeFrom count s = .error f) : Stops before input (t, hand) f := by
  induction count generalizing t s with
  | zero => cases h
  | succ count ih =>
    unfold reproposeFrom at h
    have hle : s.toNat ≤ t.log.highestSlot.toNat := by omega
    rcases bind_eq_error.mp h with h | ⟨t₁, h₁, h⟩
    · exact stops_repropose hnew ha ho (UInt64.le_iff_toNat_le.mpr hle) h
    · have hw : Works before input [] t t₁ :=
        works_repropose hnew ha ho (UInt64.le_iff_toNat_le.mpr hle) h₁
      have hkept := UInt64.le_iff_toNat_le.mp hw.highestSlot_le
      refine .works hw ?_
      rcases bind_eq_error.mp h with h | ⟨s', hs', h⟩
      · obtain ⟨rfl, rfl⟩ := checkedSucc_eq_error h
        refine .here (.slot (hw.active.trans ha) (UInt64.toNat_inj.mp ?_))
        have := t₁.log.highestSlot.toNat_lt
        change (2 ^ 64 - 1 : Nat) ≤ _ at hle
        show _ = (2 ^ 64 - 1 : Nat)
        omega
      · have hnext := toNat_of_checkedSucc hs'
        exact ih (hw.active.trans ha) (hw.owner ho) (by omega) h

/-! ## Elections -/

theorem stops_takeOver (ht : Tidy t.toReplica) (hnew : before.active = false)
    (ha : t.active = false) (ho : t.ballot.owner = some t.id)
    (hq : t.quorums.phase1Reached t.promises = true) (h : t.takeOver = .error f) :
    Stops before input (t, hand) f := by
  have hlead : Move before input t { t with active := true } := .lead ha ho hq
  refine .carries (.single (.other_of_eq hlead rfl rfl)) ?_
  unfold takeOver at h
  rcases bind_eq_error.mp h with h | ⟨t₁, h₁, h⟩
  · exact stops_reproposeFrom hnew rfl ho (Nat.le_refl _) h
  · have hw₁ : Works before input [] { t with active := true } t₁ :=
      works_reproposeFrom hnew rfl ho (Nat.le_refl _) h₁
    have hempty : Move before input t₁ { t₁ with pending := [] } := .dequeue hw₁.active
    have ht₁ := (hw₁.tidy (ht.move hlead)).move hempty
    refine .works hw₁ (.carries (.single (.dequeue t₁ hand hw₁.active)) ?_)
    rcases bind_eq_error.mp h with h | ⟨t₂, h₂, h⟩
    · exact stops_proposeAll ht₁ hw₁.active (.inr rfl) h
    · exact .works (works_proposeAll (hw₁.owner ho) (fun _ => .inr rfl) h₂) (stops_executeReady h)

theorem stops_countPromises (ht : Tidy t.toReplica) (hnew : before.active = false)
    (ha : t.active = false) (ho : t.ballot.owner = some t.id) (h : t.countPromises = .error f) :
    Stops before input (t, hand) f := by
  unfold countPromises at h
  split at h
  · rename_i hq; exact stops_takeOver ht hnew ha ho hq h
  · cases h

theorem stops_elect (ht : Tidy t.toReplica) (hi : ∀ m, input ≠ .message m)
    (hlog : t.log = before.log) (hb : t.ballot = before.ballot) (hactive : t.active = before.active)
    (h : t.elect = .error f) : Stops before input (t, hand) f := by
  unfold elect at h
  split at h
  · cases h
  · rename_i ha
    rw [Bool.not_eq_true] at ha
    rcases bind_eq_error.mp h with h | ⟨ballot, hn, h⟩
    · obtain ⟨hlast, rfl⟩ := checkedSucc_eq_error (map_eq_error.mp h)
      exact .here (.round hi (hactive ▸ ha) hb hlast)
    · have hmove : Move before input t _ := .elect ballot hlog ha hn hi hb
      exact .carries (.single (.other_of_eq hmove rfl rfl))
        (stops_countPromises (ht.move hmove) (hactive ▸ ha) ha (Ballot.owner_of_next hn) h)

theorem stops_onRequest {request : ClientRequest} (ht : Tidy t.toReplica)
    (hi : input = .request request) (hlog : t.log = before.log) (hb : t.ballot = before.ballot)
    (hactive : t.active = before.active) (h : t.onRequest request = .error f) :
    Stops before input (t, request :: hand) f := by
  unfold onRequest at h
  split at h
  · rename_i ha; exact stops_propose ht ha (.inl (hactive ▸ ha)) h
  · rename_i ha
    rw [Bool.not_eq_true] at ha
    have hcarry : Carry before input (t, request :: hand) _ := .enqueue t request hand hi ha
    simp only at h
    split at h
    · cases h
    · exact .carries (.single hcarry)
        (stops_elect (t := { t with pending := t.pending ++ [request] }) (ht.move hcarry.move)
          (by simp [hi]) hlog hb hactive h)

/-! ## Delays -/

omit [StateMachine σ] in
/-- The fault of a delay is that of its source or of its length. -/
theorem fault_scheduleBackoff (h : t.scheduleBackoff = .error f) :
    (t.backoff.policy.nextDelay t.source).1 = .error f := by
  unfold scheduleBackoff BackoffScheduler.arm at h
  by_cases hflight : t.backoff.inFlight = true
  · simp [hflight] at h
  · cases hd : t.backoff.policy.nextDelay t.source with
    | mk delay source =>
      cases delay with
      | error f' => simpa [hflight, hd, Except.map] using h
      | ok delay => simp [hflight, hd, Except.map] at h

theorem stops_follow {m : Message} (hi : input = .message m) (hm : ∀ c, m ≠ .commit c)
    (hstart : t.toReplica = before) (h : t.follow m.ballot = .error f) :
    Stops before input (t, hand) f := by
  unfold follow at h
  split at h
  · rename_i hlt
    rw [observeBallot_of_lt hlt] at h
    unfold scheduleBackoffIfNeeded at h
    split at h
    · rename_i hwork
      have hfault := fault_scheduleBackoff h
      refine .carries (.single (.other_of_eq (.follow m hi hm hlt) rfl rfl))
        (.here (.delay f ⟨m, hi, hstart ▸ hlt, .inl hwork⟩ ?_))
      rw [← hstart]
      exact hfault
    · cases h
  · cases h

/-! ## Messages -/

theorem stops_onPromise {m : Promise} (ht : Tidy t.toReplica)
    (hi : input = .message (.promise m)) (hstart : t.toReplica = before)
    (h : t.onPromise m = .error f) : Stops before input (t, hand) f := by
  unfold onPromise at h
  split at h
  · cases h
  · rename_i hn
    obtain ⟨ha, hle⟩ := not_or.mp hn
    rw [Bool.not_eq_true] at ha
    rw [Ballot.not_lt] at hle
    rcases bind_eq_error.mp h with h | ⟨⟨log, displaced⟩, hmerge, h⟩
    · exact absurd h (Log.merge_ne_error _ _ _)
    · have hmerged := Log.merged_merge hmerge
      simp only at h
      split at h
      · rename_i hlt
        rw [observeBallot_of_lt hlt] at h
        have hmove : Move before input t _ :=
          .report m log displaced hi ha (Std.le_of_lt hlt) (.inl hlt) hmerge
        have hwhy : Superseded before input { t.withLog log displaced with ballot := m.ballot } :=
          ⟨_, hi, hstart ▸ hlt, .inr ⟨m, rfl⟩⟩
        refine .carries (.single (.other _ _ hand hmove ⟨rfl, hmerged.addsUnowned⟩)) ?_
        rcases bind_eq_error.mp h with h | ⟨t₁, h₁, h⟩
        · have hfault := fault_scheduleBackoff h
          refine .here (.delay f hwhy ?_)
          rw [← hstart]
          exact hfault
        · refine .carries (.single (carry_scheduleBackoff hwhy ?_)) (stops_executeReady h)
          simpa [withLog, emitAll, ha] using h₁
      · rename_i hge
        have hm : m.ballot = t.ballot := Std.le_antisymm (Ballot.not_lt.mp hge) hle
        split at h
        · rename_i ho
          rw [hm, Ballot.isOwnedBy_iff] at ho
          have hmove : Move before input t _ :=
            .countPromise m log displaced hi hstart ha hm ho hmerge
          refine .carries (.single (.other _ _ hand hmove ⟨rfl, hmerged.addsUnowned⟩)) ?_
          rcases bind_eq_error.mp h with h | ⟨t₁, h₁, h⟩
          · exact stops_countPromises (ht.move hmove) (hstart ▸ ha) ha ho h
          · exact .carries (carries_countPromises (hstart ▸ ha) ha ho h₁) (stops_executeReady h)
        · rename_i ho
          rw [hm, Ballot.isOwnedBy_iff] at ho
          have hmove : Move before input t _ :=
            .report m log displaced hi ha (hm ▸ Std.le_refl _) (.inr (hm ▸ ho)) hmerge
          rw [hm] at hmove
          exact .carries (.single (.other _ _ hand hmove ⟨rfl, hmerged.addsUnowned⟩))
            (stops_executeReady h)

theorem stops_onPrepare {m : Prepare} (hi : input = .message (.prepare m))
    (hstart : t.toReplica = before) (h : t.onPrepare m = .error f) :
    Stops before input (t, hand) f := by
  unfold onPrepare at h
  split at h
  · cases h
  · rcases bind_eq_error.mp h with h | ⟨t₁, -, h⟩
    · exact stops_follow (m := .prepare m) hi (by simp) hstart h
    · cases h

theorem stops_onAccept {m : Accept} (hi : input = .message (.accept m))
    (hstart : t.toReplica = before) (h : t.onAccept m = .error f) :
    Stops before input (t, hand) f := by
  unfold onAccept at h
  split at h
  · cases h
  · split at h
    · cases h
    · rcases bind_eq_error.mp h with h | ⟨t₁, -, h⟩
      · exact stops_follow (m := .accept m) hi (by simp) hstart h
      · rcases bind_eq_error.mp h with h | ⟨r, -, h⟩
        · exact absurd h (Log.vote_ne_error _ _ _ _ _)
        · cases h

theorem stops_onAccepted {m : Accepted} (hi : input = .message (.accepted m))
    (hstart : t.toReplica = before) (h : t.onAccepted m = .error f) :
    Stops before input (t, hand) f := by
  unfold onAccepted at h
  split at h
  · cases h
  · rename_i e he
    split at h
    · cases h
    · rename_i hn
      obtain ⟨hc, -⟩ := not_or.mp hn
      rw [Bool.not_eq_true] at hc
      split at h
      · rename_i hlt
        exact stops_follow (m := .accepted m) hi (by simp) hstart
          ((if_pos hlt).trans h : t.follow m.ballot = .error f)
      · split at h
        · rename_i heq
          obtain ⟨hm, hb, ho⟩ := heq
          rw [hm, Ballot.isOwnedBy_iff] at ho
          have hbal : e.ballot = t.ballot := hb.symm.trans hm
          have hmove : Move before input t _ := .countVote m e hi hstart he hc hbal hm ho
          refine .carries (.single (.other_of_set hmove rfl he rfl))
            (stops_countVotes ho (fun e' he' _ => ?_) h)
          rw [Log.get?_set, if_pos rfl] at he'
          cases he'
          exact hbal
        · cases h

theorem stops_onCommit {m : Commit} (hi : input = .message (.commit m))
    (h : t.onCommit m = .error f) : Stops before input (t, hand) f := by
  unfold onCommit at h
  split at h
  · cases h
  · rename_i h0
    rcases bind_eq_error.mp h with h | ⟨⟨log, displaced⟩, hlearn, h⟩
    · exact absurd h (Log.learn_ne_error _ _ _ _ _)
    · have hmove : Move before input t _ := .learn m log displaced hi h0 hlearn
      exact .carries (.single (.other _ _ hand hmove ⟨rfl, (Log.joined_learn hlearn).addsUnowned⟩))
        (stops_executeReady h)

end Turn

variable {r : Replica ρ σ} {now : Duration} {input : Input} {f : Fault}

/-- **A step that faults** goes on until a limit is reached. -/
theorem stops_of_step (ht : Tidy r) (h : r.step now input = .error f) :
    Stops r input ({ r with now, effects := [] }, input.requests) f := by
  have h := map_eq_error.mp h
  cases input with
  | request request => exact Turn.stops_onRequest ht rfl rfl rfl rfl h
  | elect => exact Turn.stops_elect ht (by simp) rfl rfl rfl h
  | backoffElapsed => exact Turn.stops_elect ht (by simp) rfl rfl rfl (map_eq_error.mp h)
  | message m =>
    cases m with
    | prepare m => exact Turn.stops_onPrepare rfl rfl h
    | promise m => exact Turn.stops_onPromise ht rfl rfl h
    | accept m => exact Turn.stops_onAccept rfl rfl h
    | accepted m => exact Turn.stops_onAccepted rfl rfl h
    | commit m => exact Turn.stops_onCommit rfl h

end PaxosLog
