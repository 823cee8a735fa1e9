import PaxosLog.Proofs.Replica.Limits

/-!
# What a proposer leaves open

A candidate that has enough promises leads, and a leader has proposed every command that it does
not know to be chosen: between two inputs each vote in its log is under its own ballot and lacks
votes of others. `Dutiful` says this. It needs that peers do not speak in the name of the replica:
no message carries a ballot of its own that it has not opened, and nobody else asks for votes under
one.

* **`dutiful_of_step`**: a step leaves a replica dutiful that was dutiful before.
* `Move.active_kept`: leadership ends only with the ballot.
* `Move.credits`: a leader that goes on under its ballot does not forget a vote that it counted.
-/

namespace PaxosLog

variable {ρ σ : Type}

/-- Below the cursor everything is chosen, so a vote that owns a request can be anywhere. -/
theorem Tidy.hasOwnedUncommitted_iff {r : Replica ρ σ} (h : Tidy r) :
    r.log.hasOwnedUncommitted = true ↔ ∃ s e, r.log.Open s e ∧ e.request ≠ none := by
  rw [Log.hasOwnedUncommitted_iff]
  constructor
  · rintro ⟨s, e, he, -, hc, hr⟩
    exact ⟨s, e, ⟨he, hc⟩, Option.isSome_iff_ne_none.mp hr⟩
  · rintro ⟨s, e, ho, hr⟩
    refine ⟨s, e, ho.entry, Std.not_lt.mp fun hlt => ?_, ho.vote, Option.isSome_iff_ne_none.mpr hr⟩
    obtain ⟨e', he', hc'⟩ := h.done s hlt
    rw [ho.entry, Option.some_inj] at he'
    exact absurd (ho.vote.symm.trans (he' ▸ hc')) (by simp)

/-- The entry is a proposal of the replica under its ballot, which has its own vote and too few
others. -/
structure Replica.Awaits (r : Replica ρ σ) (e : LogEntry) : Prop where
  ballot : e.ballot = r.ballot
  self : r.id ∈ e.acks.voters
  few : r.quorums.phase2Reached e.acks = false

/-- What awaits votes does so under one ballot, whatever else changes. -/
theorem Replica.Awaits.of_eq {r r' : Replica ρ σ} {e : LogEntry} (h : r.Awaits e)
    (hb : r.ballot = r'.ballot) (hid : r.id = r'.id) (hq : r.quorums = r'.quorums) :
    r'.Awaits e :=
  ⟨h.ballot.trans hb, hid ▸ h.self, hq ▸ h.few⟩

/-- What a proposer leaves open between two inputs. -/
structure Dutiful (r : Replica ρ σ) : Prop where
  elected : r.ballot.owner = some r.id → r.quorums.phase1Reached r.promises = true →
    r.active = true
  awaiting : r.active = true → ∀ s e, r.log.Open s e → r.Awaits e

namespace Dutiful

/-- Under the ballot of another replica there is nothing to do. -/
theorem of_foreign {r : Replica ρ σ} (ha : r.active = false) (ho : r.ballot.owner ≠ some r.id) :
    Dutiful r where
  elected hown := absurd hown ho
  awaiting hact := absurd (ha.symm.trans hact) (by simp)

theorem start {id : ReplicaId} {n : Nat} {config : Config} {source : ρ} {machine : σ}
    {r : Replica ρ σ} (h : Replica.start id n config source machine = .ok r) : Dutiful r := by
  obtain ⟨quorums, rfl⟩ := Replica.start_eq_ok h
  exact of_foreign rfl (by simp [Ballot.zero])

end Dutiful

/-! ## Votes in the log -/

/-- The entry counts the vote of `r` under `b`, unless it is chosen or has gone to a higher
ballot. -/
def LogEntry.Credits (e : LogEntry) (b : Ballot) (r : ReplicaId) : Prop :=
  e.isCommitted = true ∨ b < e.ballot ∨ e.ballot = b ∧ r ∈ e.acks.voters

/-- A report on a slot takes no vote away that is counted there. -/
theorem LogEntry.Credits.join {e : LogEntry} {b : Ballot} {r : ReplicaId} (h : e.Credits b r)
    (p : PromisedEntry) : (LogEntry.join p (some e)).Credits b r := by
  unfold LogEntry.join
  simp only
  split
  · exact h
  · rename_i hc
    split
    · exact .inl (isCommitted_commit _)
    · split
      · rename_i hlt
        refine .inr (.inl ?_)
        rw [ballot_replaced]
        rcases h with hchosen | hhigher | ⟨hb, -⟩
        · exact absurd hchosen hc
        · exact Std.lt_trans hhigher hlt
        · exact hb ▸ hlt
      · exact h

namespace Log

/-- Some entry at the slot credits the vote. -/
def Credits (log : Log) (s : Slot) (b : Ballot) (r : ReplicaId) : Prop :=
  ∃ e, log.get? s = some e ∧ e.Credits b r

theorem Credits.set {log : Log} {s u : Slot} {b : Ballot} {r : ReplicaId} (h : log.Credits u b r)
    {e₀ e : LogEntry} (hs : log.get? s = some e₀) (he : e₀.Credits b r → e.Credits b r) :
    (log.set s e).Credits u b r := by
  obtain ⟨f, hf, hcredits⟩ := h
  unfold Credits
  rw [get?_set]
  split
  · rename_i hsu
    rw [hsu, hf, Option.some_inj] at hs
    exact ⟨e, rfl, he (hs ▸ hcredits)⟩
  · exact ⟨f, hf, hcredits⟩

theorem Credits.joined {log log' : Log} {s u : Slot} {p : PromisedEntry} {b : Ballot}
    {r : ReplicaId} (h : log.Credits u b r) (hj : Joined log log' s p) : log'.Credits u b r := by
  obtain ⟨e, he, hcredits⟩ := h
  unfold Credits
  rw [hj.get?]
  split
  · rename_i hsu
    rw [hsu, he]
    exact ⟨_, rfl, hcredits.join p⟩
  · exact ⟨e, he, hcredits⟩

theorem Credits.merged {log log' : Log} {u : Slot} {reported : SlotMap PromisedEntry} {b : Ballot}
    {r : ReplicaId} (h : log.Credits u b r) (hj : Merged log log' reported) :
    log'.Credits u b r := by
  obtain ⟨e, he, hcredits⟩ := h
  by_cases hu : u = Slot.sentinel ∨ reported[u]? = none
  · exact ⟨e, (hj.kept u hu).trans he, hcredits⟩
  · obtain ⟨h0, hp⟩ := not_or.mp hu
    obtain ⟨p, hp⟩ := Option.ne_none_iff_exists'.mp hp
    exact ⟨_, he ▸ hj.joined u p h0 hp, hcredits.join p⟩

theorem open_set {log : Log} {s u : Slot} {e e' : LogEntry} (h : (log.set s e).Open u e') :
    u = s ∧ e' = e ∨ u ≠ s ∧ log.Open u e' := by
  obtain ⟨he, hc⟩ := h
  rw [get?_set] at he
  by_cases hus : u = s
  · rw [if_pos hus.symm, Option.some_inj] at he
    exact .inl ⟨hus, he.symm⟩
  · rw [if_neg (Ne.symm hus)] at he
    exact .inr ⟨hus, he, hc⟩

/-- What is chosen leaves no vote. -/
theorem open_of_set_chosen {log : Log} {s u : Slot} {e e' : LogEntry} (hc : e.isCommitted = true)
    (h : (log.set s e).Open u e') : u ≠ s ∧ log.Open u e' := by
  rcases open_set h with ⟨-, rfl⟩ | h'
  · exact absurd (h.vote.symm.trans hc) (by simp)
  · exact h'

@[simp] theorem open_observe {log : Log} {s u : Slot} {e : LogEntry} :
    (log.observe s).Open u e ↔ log.Open u e :=
  ⟨fun ⟨he, hc⟩ => ⟨by rwa [get?_observe] at he, hc⟩,
    fun ⟨he, hc⟩ => ⟨by rwa [get?_observe], hc⟩⟩

/-- An announcement adds no vote. -/
theorem open_of_learn {log log' : Log} {s u : Slot} {b : Ballot} {c : Command} {e : LogEntry}
    (hj : Joined log log' s ⟨c, b, true⟩) (h : log'.Open u e) : log.Open u e := by
  obtain ⟨he, hc⟩ := h
  rw [hj.get?] at he
  split at he
  · rename_i hsu
    subst hsu
    rcases LogEntry.vote_of_join (Option.some_inj.mp he) hc with hold | ⟨hr, -⟩
    · exact ⟨hold, hc⟩
    · cases hr
  · exact ⟨he, hc⟩

end Log

variable [RandomSource ρ] [StateMachine σ]

/-! ## Moves of a leader -/

namespace Move

variable {before : Replica ρ σ} {input : Input} {t t' : Turn ρ σ}

/-- A leader leads on, unless a message brings a higher ballot. -/
theorem active_cases (h : Move before input t t') (ha : t.active = true) :
    t'.active = true ∨ ∃ m, input = .message m ∧ t.ballot < m.ballot ∧ t'.ballot = m.ballot := by
  cases h with
  | lead hinactive ho hq => exact .inl rfl
  | execute t' e hs hc h => exact .inl ((execute_same h).2.2.2.1.trans ha)
  | follow m hi hm hlt => exact .inr ⟨m, hi, hlt, rfl⟩
  | backOff t' h => exact .inl ((backOff_same h).2.2.2.2.1.trans ha)
  | _ => exact .inl ha

/-- **Leadership ends only with the ballot.** -/
theorem active_kept (h : Move before input t t') (ha : t.active = true)
    (hb : t'.ballot = t.ballot) : t'.active = true := by
  rcases h.active_cases ha with hact | ⟨m, -, hlt, hm⟩
  · exact hact
  · rw [← hm, hb] at hlt
    exact absurd hlt Std.lt_irrefl

/-- **A leader keeps the votes that it counted.** Only a new leader proposes again, which starts the
vote over. -/
theorem credits (h : Move before input t t') (hlead : before.active = true) {s : Slot} {b : Ballot}
    {r : ReplicaId} (hcredits : t.log.Credits s b r) : t'.log.Credits s b r := by
  cases h with
  | offer u command request ha hu hc =>
    obtain ⟨e, he, hvote⟩ := hcredits
    refine ⟨e, ?_, hvote⟩
    have hne : u ≠ s := by rintro rfl; rw [hu] at he; cases he
    simp only [Turn.emit, Log.get?_set, Log.get?_observe, if_neg hne, he]
  | offerAgain u e ha hu hc hnew => exact absurd (hnew.symm.trans hlead) (by simp)
  | choose u e ho hu hc hb hq => exact hcredits.set hu fun _ => .inl (LogEntry.isCommitted_commit e)
  | execute t' e he hc h =>
    obtain ⟨_, _, _, -, rfl, -⟩ := Turn.executeEntry_eq_ok h
    exact hcredits.set he id
  | backOff t' h => rw [(backOff_same h).2.2.1]; exact hcredits
  | vote m proposer log displaced hi ho hb h => exact hcredits.joined (Log.joined_vote h)
  | report m log displaced hi ha hle ho h => exact hcredits.merged (Log.merged_merge h)
  | countPromise m log displaced hi hstart ha hm ho h =>
    exact hcredits.merged (Log.merged_merge h)
  | countVote m e hi hstart hs hc hb hm ho =>
    refine hcredits.set hs fun hvote => hvote.imp_right (Or.imp_right (And.imp_right fun hr => ?_))
    exact Quorum.mem_ack.mpr (.inl hr)
  | learn m log displaced hi h0 h => exact hcredits.joined (Log.joined_learn h)
  | _ => exact hcredits

end Move

/-! ## Work on the log -/

namespace Turn

variable {t t' : Turn ρ σ}

omit [RandomSource ρ] in
/-- Execution adds no vote. -/
theorem open_executeUpTo {count : Nat} (h : t.executeUpTo count = .ok t') {s : Slot}
    {e : LogEntry} (ho : t'.log.Open s e) : t.log.Open s e := by
  induction count generalizing t with
  | zero => cases h; exact ho
  | succ count ih =>
    unfold executeUpTo at h
    split at h
    · cases h; exact ho
    · rename_i e₀ he₀
      split at h
      · rename_i hc₀
        obtain ⟨t₁, h₁, h₂⟩ := bind_eq_ok.mp h
        obtain ⟨_, _, _, -, rfl, -⟩ := executeEntry_eq_ok h₁
        obtain ⟨he, hc⟩ := ih h₂
        have hset : (t.log.set t.log.executeCursor e₀.withoutRequest).Open s e := ⟨he, hc⟩
        have hchosen : e₀.withoutRequest.isCommitted = true := hc₀
        exact (Log.open_of_set_chosen hchosen hset).2
      · cases h; exact ho

omit [RandomSource ρ] in
/-- Counting votes leaves a vote at the slot only if they are too few. -/
theorem open_countVotes {s u : Slot} {e : LogEntry} (h : t.countVotes s = .ok t')
    (ho : t'.log.Open u e) :
    t.log.Open u e ∧ (u = s → t.quorums.phase2Reached e.acks = false) := by
  unfold countVotes at h
  split at h
  · rename_i hs
    cases h
    refine ⟨ho, fun hus => ?_⟩
    have he := ho.entry
    rw [hus, hs] at he
    cases he
  · rename_i e₀ he₀
    split at h
    · have hset := open_executeUpTo h ho
      obtain ⟨hne, hopen⟩ := Log.open_of_set_chosen (LogEntry.isCommitted_commit e₀) hset
      exact ⟨hopen, fun hus => absurd hus hne⟩
    · rename_i hcond
      cases h
      refine ⟨ho, fun hus => ?_⟩
      have he := ho.entry
      rw [hus, he₀, Option.some_inj] at he
      rw [he, ho.vote] at hcond
      simpa using hcond

omit [RandomSource ρ] in
/-- A new proposal awaits votes, or was chosen at once. -/
theorem open_askForVotes {log : Log} {s u : Slot} {e₀ e : LogEntry} {command : Command}
    (hb : e₀.ballot = t.ballot) (hacks : e₀.acks = Quorum.empty.ack t.id)
    (h : askForVotes { t with log := log.set s e₀ } s command = .ok t') (ho : t'.log.Open u e) :
    t.Awaits e ∨ u ≠ s ∧ log.Open u e := by
  obtain ⟨hset, hfew⟩ := open_countVotes h ho
  rcases Log.open_set hset with ⟨hus, rfl⟩ | hold
  · exact .inl ⟨hb, hacks ▸ Quorum.mem_ack.mpr (.inr rfl), hfew hus⟩
  · exact .inr hold

omit [RandomSource ρ] in
theorem open_propose {request : ClientRequest} {u : Slot} {e : LogEntry}
    (h : t.propose request = .ok t') (ho : t'.log.Open u e) : t.Awaits e ∨ t.log.Open u e := by
  obtain ⟨s, -, -, -, -, h⟩ := propose_eq_ok h
  rcases open_askForVotes (t := t) rfl rfl h ho with hawaits | ⟨-, hopen⟩
  · exact .inl hawaits
  · exact .inr (Log.open_observe.mp hopen)

omit [RandomSource ρ] in
/-- What a slot holds after it was proposed again. -/
theorem open_repropose {s u : Slot} {e : LogEntry} (h : t.repropose s = .ok t')
    (ho : t'.log.Open u e) : t.Awaits e ∨ u ≠ s ∧ t.log.Open u e := by
  unfold repropose at h
  split at h
  · obtain ⟨log, hinsert, h⟩ := bind_eq_ok.mp h
    obtain ⟨-, rfl⟩ := Log.insert_eq_ok hinsert
    rcases open_askForVotes (t := t) rfl rfl h ho with hawaits | ⟨hne, hopen⟩
    · exact .inl hawaits
    · exact .inr ⟨hne, Log.open_observe.mp hopen⟩
  · rename_i e₀ he₀
    split at h
    · rename_i hc₀
      cases h
      refine .inr ⟨fun hus => ?_, ho⟩
      have he := ho.entry
      rw [hus, he₀, Option.some_inj] at he
      exact absurd (hc₀.symm.trans (he ▸ ho.vote)) (by simp)
    · rename_i hc₀
      obtain ⟨e', he', h⟩ := bind_eq_ok.mp h
      rw [LogEntry.repropose, if_neg hc₀] at he'
      cases he'
      exact open_askForVotes (t := t) rfl rfl h ho

end Turn

section Steps

variable {before : Replica ρ σ} {input : Input} {supply : List ClientRequest} {t t' : Turn ρ σ}

/-- Work under a ballot changes nothing about what awaits votes under it. -/
theorem Works.awaits_iff (hw : Works before input supply t t') {e : LogEntry} :
    t'.Awaits e ↔ t.Awaits e := by
  rw [hw.rest]
  exact ⟨fun h => h.of_eq rfl rfl rfl, fun h => h.of_eq rfl rfl rfl⟩

/-- Work keeps a replica dutiful if it leaves only votes that await others. -/
theorem Works.dutiful (hw : Works before input supply t t') (hd : Dutiful t.toReplica)
    (h : t.active = true → ∀ s e, t'.log.Open s e → t.Awaits e) : Dutiful t'.toReplica where
  elected := by
    rw [hw.rest]
    exact hd.elected
  awaiting hact s e ho := hw.awaits_iff.mpr (h (hw.active.symm.trans hact) s e ho)

namespace Turn

theorem open_proposeAll {requests : List ClientRequest} (hown : t.ballot.owner = some t.id)
    (h : requests.foldlM propose t = .ok t') {u : Slot} {e : LogEntry} (ho : t'.log.Open u e) :
    t.Awaits e ∨ t.log.Open u e := by
  induction requests generalizing t with
  | nil => cases h; exact .inr ho
  | cons request requests ih =>
    rw [List.foldlM_cons] at h
    obtain ⟨t₁, h₁, h₂⟩ := bind_eq_ok.mp h
    have hw : Works t.toReplica .elect [request] t t₁ :=
      works_propose hown (fun ha => .inl ha) h₁
    rcases ih (hw.owner hown) h₂ with hawaits | hopen
    · exact .inl (hw.awaits_iff.mp hawaits)
    · exact open_propose h₁ hopen

/-- The slots from `s` on were proposed again, `count` of them. -/
theorem open_reproposeFrom {count : Nat} {s : Slot} (hnew : before.active = false)
    (ha : t.active = true) (hown : t.ballot.owner = some t.id)
    (hcount : count ≤ t.log.highestSlot.toNat + 1 - s.toNat)
    (h : t.reproposeFrom count s = .ok t') {u : Slot} {e : LogEntry} (ho : t'.log.Open u e) :
    t.Awaits e ∨ t.log.Open u e ∧ (u < s ∨ s.toNat + count ≤ u.toNat) := by
  induction count generalizing t s with
  | zero =>
    cases h
    refine .inr ⟨ho, ?_⟩
    rw [UInt64.lt_iff_toNat_lt]
    omega
  | succ count ih =>
    unfold reproposeFrom at h
    obtain ⟨t₁, h₁, h⟩ := bind_eq_ok.mp h
    obtain ⟨s', hs', h₂⟩ := bind_eq_ok.mp h
    have hw : Works before .elect [] t t₁ :=
      works_repropose hnew ha hown (UInt64.le_iff_toNat_le.mpr (by omega)) h₁
    have hnext := toNat_of_checkedSucc hs'
    have hkept := UInt64.le_iff_toNat_le.mp hw.highestSlot_le
    rcases ih (hw.active.trans ha) (hw.owner hown) (by omega) h₂ with hawaits | ⟨hopen, hout⟩
    · exact .inl (hw.awaits_iff.mp hawaits)
    · rcases open_repropose h₁ hopen with hawaits | ⟨hne, hopen⟩
      · exact .inl hawaits
      · refine .inr ⟨hopen, ?_⟩
        rw [UInt64.lt_iff_toNat_lt] at hout ⊢
        rw [Ne, ← UInt64.toNat_inj] at hne
        omega

/-! ## Elections -/

/-- **A new leader has proposed everything** that it does not know to be chosen: what is below the
cursor is chosen, and there are no entries above the highest slot. -/
theorem dutiful_takeOver (ht : Tidy t.toReplica) (ha : t.active = false)
    (hown : t.ballot.owner = some t.id) (h : t.takeOver = .ok t') : Dutiful t'.toReplica := by
  obtain ⟨t₁, t₂, h₁, h₂, h₃, hw₁, hw₂, hw₃⟩ :=
    takeOver_eq_ok t.toReplica .elect ha hown h
  have hact : t'.active = true := hw₃.active.trans (hw₂.active.trans hw₁.active)
  refine ⟨fun _ _ => hact, fun _ s e ho => ?_⟩
  rw [hw₃.awaits_iff, hw₂.awaits_iff]
  rcases open_proposeAll (t := { t₁ with pending := [] }) (hw₁.owner hown) h₂
    (open_executeUpTo h₃ ho) with hawaits | hopen
  · exact hawaits
  · rcases open_reproposeFrom (t := { t with active := true }) ha rfl hown (Nat.le_refl _) h₁
      hopen with hawaits | ⟨hold, hlt | hge⟩
    · exact (hw₁.awaits_iff.mpr hawaits).of_eq rfl rfl rfl
    · -- below the cursor everything was chosen
      obtain ⟨e₀, he₀, hc₀⟩ := ht.done s hlt
      have hsame := hold.entry
      change t.log.get? s = some e at hsame
      rw [he₀, Option.some_inj] at hsame
      exact absurd (hc₀.symm.trans (hsame ▸ hold.vote)) (by simp)
    · have hle := UInt64.le_iff_toNat_le.mp (ht.bounded s e hold.entry)
      change t.log.executeCursor.toNat + (t.log.highestSlot.toNat + 1 - t.log.executeCursor.toNat) ≤
        s.toNat at hge
      exact absurd hge (by omega)

/-- A new leader keeps the promises that elected it. -/
theorem promises_takeOver (ha : t.active = false) (hown : t.ballot.owner = some t.id)
    (h : t.takeOver = .ok t') : t'.promises = t.promises := by
  obtain ⟨t₁, t₂, -, -, -, hw₁, hw₂, hw₃⟩ :=
    takeOver_eq_ok t.toReplica .elect ha hown h
  rw [hw₃.promises, hw₂.promises, hw₁.promises]

theorem promises_countPromises (ha : t.active = false) (hown : t.ballot.owner = some t.id)
    (h : t.countPromises = .ok t') : t'.promises = t.promises := by
  unfold countPromises at h
  split at h
  · exact promises_takeOver ha hown h
  · cases h; rfl

theorem dutiful_countPromises (ht : Tidy t.toReplica) (ha : t.active = false)
    (hown : t.ballot.owner = some t.id) (h : t.countPromises = .ok t') :
    Dutiful t'.toReplica := by
  unfold countPromises at h
  split at h
  · exact dutiful_takeOver ht ha hown h
  · rename_i hq
    cases h
    exact ⟨fun _ hreached => absurd hreached hq, fun hact => absurd (ha.symm.trans hact) (by simp)⟩

theorem dutiful_elect (ht : Tidy t.toReplica) (hd : Dutiful t.toReplica)
    (h : t.elect = .ok t') : Dutiful t'.toReplica := by
  unfold elect at h
  split at h
  · cases h; exact hd
  · rename_i ha
    rw [Bool.not_eq_true] at ha
    obtain ⟨ballot, hn, h⟩ := bind_eq_ok.mp h
    have hmove : Move t.toReplica .elect t _ := .elect ballot rfl ha hn (by simp) rfl
    exact dutiful_countPromises (ht.move hmove) ha (Ballot.owner_of_next hn) h

theorem dutiful_onRequest {request : ClientRequest} (ht : Tidy t.toReplica)
    (hd : Dutiful t.toReplica) (h : t.onRequest request = .ok t') : Dutiful t'.toReplica := by
  unfold onRequest at h
  split at h
  · rename_i ha
    have hw : Works t.toReplica .elect [request] t t' :=
      works_propose (ht.lead ha).1 (fun _ => .inl ha) h
    exact hw.dutiful hd fun _ s e ho => (open_propose h ho).elim id (hd.awaiting ha s e)
  · rename_i ha
    rw [Bool.not_eq_true] at ha
    have hd₁ : Dutiful { t with pending := t.pending ++ [request] }.toReplica :=
      ⟨hd.elected, fun hact => absurd (ha.symm.trans hact) (by simp)⟩
    simp only at h
    split at h
    · cases h; exact hd₁
    · have hmove : Move t.toReplica (.request request) t _ := .enqueue request rfl ha
      exact dutiful_elect (ht.move hmove) hd₁ h

theorem dutiful_executeReady (hd : Dutiful t.toReplica) (h : t.executeReady = .ok t') :
    Dutiful t'.toReplica := by
  have hw : Works t.toReplica .elect [] t t' := works_executeReady h
  exact hw.dutiful hd fun ha s e ho => hd.awaiting ha s e (open_executeUpTo h ho)

/-! ## Messages -/

omit [StateMachine σ] in
/-- A higher ballot belongs to another replica. -/
theorem dutiful_follow {b : Ballot} (hd : Dutiful t.toReplica)
    (hforeign : t.ballot < b → b.owner ≠ some t.id) (h : t.follow b = .ok t') :
    Dutiful t'.toReplica := by
  rcases follow_cases h with rfl | ⟨hlt, hb, ha, hid⟩
  · exact hd
  · refine .of_foreign ha ?_
    rw [hb, hid]
    exact hforeign hlt

omit [StateMachine σ] in
theorem dutiful_onPrepare {m : Prepare} (hd : Dutiful t.toReplica)
    (hforeign : t.ballot < m.ballot → m.ballot.owner ≠ some t.id) (h : t.onPrepare m = .ok t') :
    Dutiful t'.toReplica := by
  unfold onPrepare at h
  split at h
  · cases h; exact hd
  · obtain ⟨t₁, h₁, h₂⟩ := bind_eq_ok.mp h
    cases h₂
    have hd₁ := dutiful_follow hd hforeign h₁
    exact hd₁

omit [StateMachine σ] in
/-- A vote is given to another replica. -/
theorem dutiful_onAccept {m : Accept} (ht : Tidy t.toReplica) (hd : Dutiful t.toReplica)
    (hforeign : m.ballot.owner ≠ some t.id) (h : t.onAccept m = .ok t') :
    Dutiful t'.toReplica := by
  cases onAccept_eq_ok h with
  | ignored h => subst h; exact hd
  | refused proposer ho hlt h => subst h; exact hd
  | voted proposer t₁ log displaced ho hle h₁ hvote h =>
    subst h
    have hb := ballot_of_follow hle h₁
    rcases follow_cases h₁ with rfl | ⟨-, -, ha, hid⟩
    · have hother : t₁.ballot.owner ≠ some t₁.id := hb ▸ hforeign
      have ha : t₁.active = false := Bool.eq_false_iff.mpr fun hact => hother (ht.lead hact).1
      exact .of_foreign ha hother
    · have hother : t₁.ballot.owner ≠ some t₁.id := by rw [hb, hid]; exact hforeign
      exact .of_foreign ha hother

theorem dutiful_onPromise {m : Promise} (ht : Tidy t.toReplica) (hd : Dutiful t.toReplica)
    (hforeign : t.ballot < m.ballot → m.ballot.owner ≠ some t.id) (h : t.onPromise m = .ok t') :
    Dutiful t'.toReplica := by
  cases onPromise_eq_ok h with
  | ignored hn h => subst h; exact hd
  | superseded log displaced t₁ ha hlt hmerge h₁ h₂ =>
    obtain ⟨_, _, _, rfl, -⟩ := scheduleBackoff_eq_ok h₁
    exact dutiful_executeReady (.of_foreign rfl (hforeign hlt)) h₂
  | counted log displaced t₁ ha hm ho hmerge h₁ h₂ =>
    have hmove : Move t.toReplica (.message (.promise m)) t _ :=
      .countPromise m log displaced rfl rfl ha hm ho hmerge
    exact dutiful_executeReady (dutiful_countPromises (ht.move hmove) ha ho h₁) h₂
  | reported log displaced ha hm ho hmerge h =>
    exact dutiful_executeReady (t := t.withLog log displaced) (.of_foreign ha ho) h

/-- A candidate counts every promise for its ballot. -/
theorem counted_onPromise {m : Promise} (ha : t.active = false) (hm : m.ballot = t.ballot)
    (ho : t.ballot.owner = some t.id) (h : t.onPromise m = .ok t') :
    m.sender ∈ t'.promises.voters := by
  cases onPromise_eq_ok h with
  | ignored hn h =>
    rcases hn with hact | hlt
    · exact absurd (ha.symm.trans hact) (by simp)
    · exact absurd (hm ▸ hlt) Std.lt_irrefl
  | superseded log displaced t₁ _ hlt hmerge h₁ h₂ => exact absurd (hm ▸ hlt) Std.lt_irrefl
  | counted log displaced t₁ _ _ _ hmerge h₁ h₂ =>
    have hw : Works t.toReplica .elect [] t₁ t' := works_executeReady h₂
    have hsame := promises_countPromises (t := { t.withLog log displaced with
      promises := t.promises.ack m.sender }) ha ho h₁
    rw [hw.promises, hsame]
    exact Quorum.mem_ack.mpr (.inr rfl)
  | reported log displaced _ _ hforeign hmerge h => exact absurd ho hforeign

theorem dutiful_onAccepted {m : Accepted} (hd : Dutiful t.toReplica)
    (hforeign : t.ballot < m.ballot → m.ballot.owner ≠ some t.id) (h : t.onAccepted m = .ok t') :
    Dutiful t'.toReplica := by
  cases onAccepted_eq_ok h with
  | ignored h => subst h; exact hd
  | superseded hlt h => exact dutiful_follow hd hforeign h
  | counted e₀ he₀ hc hb hm ho h =>
    have hset : Works t.toReplica (.message (.accepted m)) [] t
        { t with log := t.log.set m.slot (e₀.ack m.sender) } :=
      .single (.countVote m e₀ rfl rfl he₀ hc hb hm ho) (Log.addsUnowned_set he₀ _) rfl
    refine (hset.trans (works_counted hb ho h)).dutiful hd fun ha s e hopen => ?_
    obtain ⟨hopen, hfew⟩ := open_countVotes h hopen
    rcases Log.open_set hopen with ⟨hs, rfl⟩ | ⟨-, hold⟩
    · obtain ⟨hbal, hself, -⟩ := hd.awaiting ha m.slot e₀ ⟨he₀, hc⟩
      exact ⟨hbal, Quorum.mem_ack.mpr (.inl hself), hfew hs⟩
    · exact hd.awaiting ha s e hold

theorem dutiful_onCommit {m : Commit} (hd : Dutiful t.toReplica) (h : t.onCommit m = .ok t') :
    Dutiful t'.toReplica := by
  unfold onCommit at h
  split at h
  · cases h; exact hd
  · obtain ⟨⟨log, displaced⟩, hlearn, h⟩ := bind_eq_ok.mp h
    have hj := Log.joined_learn hlearn
    refine dutiful_executeReady (t := t.withLog log displaced.toList)
      ⟨hd.elected, fun ha s e ho => ?_⟩ h
    exact (hd.awaiting ha s e (Log.open_of_learn hj ho)).of_eq rfl rfl rfl

end Turn

/-- **A step leaves a replica dutiful**, if nobody else speaks in its name. -/
theorem dutiful_of_step {r r' : Replica ρ σ} {now : Duration} {effects : List Effect}
    (ht : Tidy r) (hd : Dutiful r)
    (hforeign : ∀ m, input = .message m → (∀ c, m ≠ .commit c) → r.ballot < m.ballot →
      m.ballot.owner ≠ some r.id)
    (hasked : ∀ m, input = .message (.accept m) → m.ballot.owner ≠ some r.id)
    (h : r.step now input = .ok (r', effects)) : Dutiful r' := by
  obtain ⟨t, ht', heq⟩ := map_eq_ok.mp h
  cases heq
  cases input with
  | request request => exact Turn.dutiful_onRequest ht hd ht'
  | elect => exact Turn.dutiful_elect ht hd ht'
  | backoffElapsed =>
    obtain ⟨t₁, h₁, rfl⟩ := map_eq_ok.mp ht'
    have hd₁ := Turn.dutiful_elect ht hd h₁
    exact ⟨hd₁.elected, fun ha s e ho => (hd₁.awaiting ha s e ho).of_eq rfl rfl rfl⟩
  | message m =>
    have hhigher := hforeign m rfl
    cases m with
    | prepare m => exact Turn.dutiful_onPrepare hd (hhigher (by simp)) ht'
    | promise m => exact Turn.dutiful_onPromise ht hd (hhigher (by simp)) ht'
    | accept m => exact Turn.dutiful_onAccept ht hd (hasked m rfl) ht'
    | accepted m => exact Turn.dutiful_onAccepted hd (hhigher (by simp)) ht'
    | commit m => exact Turn.dutiful_onCommit hd ht'

end Steps

end PaxosLog
