import PaxosLog.Proofs.Replica.Change

/-!
# Invariants of a single replica

`Tidy` is what a replica can rely on by itself, whatever its peers tell it: the sentinel is chosen,
no entry is above the highest slot, all slots below the cursor are chosen and their requests
answered, an entry that owns a request holds its command, and a leader owns its ballot and has the
promises for it.

**`Tidy.move`**: every move keeps this, and that the highest slot holds an entry (`Log.Topped`,
`Tidy.topped_move`).
-/

namespace PaxosLog

namespace Log

/-- No entry is above the highest slot. -/
def Bounded (log : Log) : Prop := ∀ s e, log.get? s = some e → s ≤ log.highestSlot

theorem bounded_empty : empty.Bounded := by
  intro s e he
  rw [(of_get?_empty he).1]
  exact Std.le_refl _

theorem Bounded.set {log : Log} (h : log.Bounded) {s : Slot} {e₀ : LogEntry}
    (hs : log.get? s = some e₀) (e : LogEntry) : (log.set s e).Bounded := by
  intro t f hf
  rw [get?_set] at hf
  split at hf
  · rename_i hst; rw [← hst]; exact h s e₀ hs
  · exact h t f hf

/-- Bounds of a log that took something in at slot `s`. -/
theorem Bounded.of_observe {log log' : Log} (h : log.Bounded) {s : Slot}
    (hget : ∀ t, s ≠ t → log'.get? t = log.get? t)
    (hhigh : log'.highestSlot = (log.observe s).highestSlot) : log'.Bounded := by
  obtain ⟨hle, hs⟩ := le_highestSlot_observe log s
  intro t f hf
  rw [hhigh]
  by_cases hst : s = t
  · exact hst ▸ hs
  · rw [hget t hst] at hf
    exact Std.le_trans (h t f hf) hle

theorem Bounded.joined {log log' : Log} (h : log.Bounded) {s : Slot} {r : PromisedEntry}
    (hj : Joined log log' s r) : log'.Bounded :=
  h.of_observe (fun t hst => by rw [hj.get?, if_neg hst])
    (by rw [hj.highest, highestSlot_observe])

theorem Bounded.merged {log log' : Log} (h : log.Bounded) {reported : SlotMap PromisedEntry}
    (hj : Merged log log' reported) : log'.Bounded := by
  intro s e he
  by_cases hs : s = Slot.sentinel ∨ reported[s]? = none
  · rw [hj.kept s hs] at he
    exact Std.le_trans (h s e he) hj.highest
  · obtain ⟨hs, hr⟩ := not_or.mp hs
    obtain ⟨r, hr⟩ := Option.ne_none_iff_exists'.mp hr
    exact hj.covers s r hs hr

/-- The highest slot holds an entry. -/
def Topped (log : Log) : Prop := ∃ e, log.get? log.highestSlot = some e

theorem topped_empty : empty.Topped := ⟨_, rfl⟩

theorem Topped.set {log : Log} (h : log.Topped) (s : Slot) (e : LogEntry) :
    (log.set s e).Topped := by
  obtain ⟨e₀, he₀⟩ := h
  unfold Topped
  rw [highestSlot_set, get?_set]
  split
  · exact ⟨e, rfl⟩
  · exact ⟨e₀, he₀⟩

/-- A slot that becomes the highest one gets an entry with it. -/
theorem Topped.set_observe {log : Log} (h : log.Topped) (s : Slot) (e : LogEntry) :
    ((log.observe s).set s e).Topped := by
  by_cases hs : log.highestSlot < s
  · have hhigh : ((log.observe s).set s e).highestSlot = s := by simp [observe, hs]
    exact ⟨e, by rw [hhigh, get?_set, if_pos rfl]⟩
  · have hsame : log.observe s = log := by simp [observe, hs]
    rw [hsame]
    exact h.set s e

theorem Topped.joined {log log' : Log} {s : Slot} {r : PromisedEntry} (hj : Joined log log' s r)
    (h : log.Topped) : log'.Topped := by
  obtain ⟨e, he⟩ := h.set_observe s (LogEntry.join r (log.get? s))
  refine ⟨e, ?_⟩
  rw [highestSlot_set, get?_set, get?_observe, highestSlot_observe, ← hj.highest] at he
  rw [hj.get?, he]

end Log

variable {ρ σ : Type}

/-- A replica starts with nothing but its quorums and what it was given. -/
theorem Replica.start_eq_ok {id : ReplicaId} {n : Nat} {config : Config} {source : ρ} {machine : σ}
    {r : Replica ρ σ} (h : Replica.start id n config source machine = .ok r) :
    ∃ quorums, r =
      { id
        quorums
        log := .empty
        ballot := .zero
        active := false
        promises := .empty
        pending := []
        backoff := .idle config.backoff
        source
        machine } := by
  unfold Replica.start at h
  cases hq : config.quorums n with
  | error f => rw [hq] at h; cases h
  | ok quorums =>
    rw [hq] at h
    cases h
    exact ⟨quorums, rfl⟩

/-- The thresholds are those of the configuration. -/
theorem Replica.quorums_of_start {id : ReplicaId} {n : Nat} {config : Config} {source : ρ}
    {machine : σ} {r : Replica ρ σ} (h : Replica.start id n config source machine = .ok r) :
    config.quorums n = .ok r.quorums := by
  unfold Replica.start at h
  cases hq : config.quorums n with
  | error f => rw [hq] at h; cases h
  | ok quorums => rw [hq] at h; cases h; rfl

/-- What a replica can rely on by itself. -/
structure Tidy (r : Replica ρ σ) : Prop where
  sentinel : ∃ e, r.log.get? Slot.sentinel = some e ∧ e.isCommitted = true ∧ e.command = .noop
  first_le : Slot.first ≤ r.log.executeCursor
  bounded : r.log.Bounded
  done : ∀ s, s < r.log.executeCursor → ∃ e, r.log.get? s = some e ∧ e.isCommitted = true
  spent : ∀ s e, s < r.log.executeCursor → r.log.get? s = some e → e.request = none
  owning : r.log.Owning
  lead : r.active = true →
    r.ballot.owner = some r.id ∧ r.quorums.phase1Reached r.promises = true

namespace Tidy

theorem start {id : ReplicaId} {n : Nat} {config : Config} {source : ρ} {machine : σ}
    {r : Replica ρ σ} (h : Replica.start id n config source machine = .ok r) : Tidy r := by
  obtain ⟨quorums, rfl⟩ := Replica.start_eq_ok h
  have hget : Log.empty.get? Slot.sentinel = some (.chosen Ballot.zero .noop) := by simp
  have h0 : ∀ s, s < Log.empty.executeCursor → s = Slot.sentinel := by
    intro s hs
    change s < 1 at hs
    show s = 0
    grind
  refine ⟨⟨_, hget, rfl, rfl⟩, Std.le_refl _, Log.bounded_empty, fun s hs => ?_,
    fun s e hs he => ?_, Log.owning_empty, by simp⟩
  · exact ⟨_, h0 s hs ▸ hget, rfl⟩
  · change Log.empty.get? s = some e at he
    rw [h0 s hs, hget] at he
    cases he
    rfl

/-- The sentinel is chosen, so a vote is for another slot. -/
theorem first_le_of_vote {r : Replica ρ σ} (h : Tidy r) {s : Slot} {e : LogEntry}
    (he : r.log.get? s = some e) (hc : e.isCommitted = false) : Slot.first ≤ s := by
  obtain ⟨e₀, he₀, hc₀, -⟩ := h.sentinel
  have hne : s ≠ Slot.sentinel := by
    rintro rfl
    rw [he₀, Option.some_inj] at he
    exact absurd (hc₀.symm.trans (he ▸ hc)) (by simp)
  change s ≠ 0 at hne
  show 1 ≤ s
  grind

variable [RandomSource ρ] [StateMachine σ]
  {before : Replica ρ σ} {input : Input} {t t' : Turn ρ σ}

theorem bounded_move (h : Move before input t t') (hb : t.log.Bounded) : t'.log.Bounded := by
  cases h with
  | offer s command request ha hs hc =>
    exact hb.of_observe (fun u hu => by simp [Turn.emit, hu]) rfl
  | offerAgain s e ha hs hc => exact hb.set hs _
  | choose s e ho hs hc hbal hq => exact hb.set hs _
  | execute t' e hs hc h =>
    obtain ⟨_, _, _, -, rfl, -⟩ := Turn.executeEntry_eq_ok h
    exact hb.set hs e.withoutRequest
  | backOff t' h => rw [(Move.backOff_same h).2.2.1]; exact hb
  | vote m proposer log displaced hi ho hbal h => exact hb.joined (Log.joined_vote h)
  | report m log displaced hi ha hle ho h => exact hb.merged (Log.merged_merge h)
  | countPromise m log displaced hi hstart ha hm ho h => exact hb.merged (Log.merged_merge h)
  | countVote m e hi hstart hs hc hbal hm ho => exact hb.set hs _
  | learn m log displaced hi h0 h => exact hb.joined (Log.joined_learn h)
  | _ => exact hb

theorem topped_move (h : Move before input t t') (ht : t.log.Topped) : t'.log.Topped := by
  cases h with
  | offer s command request ha hs hc => exact ht.set_observe s _
  | offerAgain s e ha hs hc => exact ht.set s _
  | choose s e ho hs hc hb hq => exact ht.set s _
  | execute t' e hs hc h =>
    obtain ⟨_, _, _, -, rfl, -⟩ := Turn.executeEntry_eq_ok h
    exact ht.set _ e.withoutRequest
  | backOff t' h => rw [(Move.backOff_same h).2.2.1]; exact ht
  | vote m proposer log displaced hi ho hb h => exact ht.joined (Log.joined_vote h)
  | report m log displaced hi ha hle ho h =>
    exact Log.merge_induction (fun _ => Log.Topped.joined) h ht
  | countPromise m log displaced hi hstart ha hm ho h =>
    exact Log.merge_induction (fun _ => Log.Topped.joined) h ht
  | countVote m e hi hstart hs hc hb hm ho => exact ht.set _ _
  | learn m log displaced hi h0 h => exact ht.joined (Log.joined_learn h)
  | _ => exact ht

/-- A slot that the cursor has passed was passed before or is passed by this move. -/
theorem passed_cases (h : Move before input t t') {s : Slot} (hs : s < t'.log.executeCursor) :
    s < t.log.executeCursor ∨ s = t.log.executeCursor ∧
      t.log.executeCursor.next = .ok t'.log.executeCursor ∧
        ∃ e, t.log.get? t.log.executeCursor = some e ∧ e.isCommitted = true := by
  rcases h.cursor_cases with heq | ⟨hchosen, hnext⟩
  · exact .inl (heq ▸ hs)
  · by_cases heq : s = t.log.executeCursor
    · exact .inr ⟨heq, hnext, hchosen⟩
    · have := toNat_of_checkedSucc hnext
      rw [UInt64.lt_iff_toNat_lt] at hs
      rw [← UInt64.toNat_inj] at heq
      exact .inl (by rw [UInt64.lt_iff_toNat_lt]; omega)

/-- What the cursor has passed is chosen. -/
theorem done_move (h : Move before input t t')
    (hd : ∀ s, s < t.log.executeCursor → ∃ e, t.log.get? s = some e ∧ e.isCommitted = true)
    {s : Slot} (hs : s < t'.log.executeCursor) :
    ∃ e, t'.log.get? s = some e ∧ e.isCommitted = true := by
  have hold : ∃ e, t.log.get? s = some e ∧ e.isCommitted = true := by
    rcases passed_cases h hs with hlt | ⟨rfl, -, hchosen⟩
    · exact hd s hlt
    · exact hchosen
  obtain ⟨e, he, hc⟩ := hold
  obtain ⟨e', he', hc', -⟩ := h.still_chosen he hc
  exact ⟨e', he', hc'⟩

/-- What the cursor has passed owns no request. -/
theorem spent_move (h : Move before input t t') (ht : Tidy t.toReplica) {s : Slot} {e : LogEntry}
    (hs : s < t'.log.executeCursor) (he : t'.log.get? s = some e) : e.request = none := by
  rcases passed_cases h hs with hlt | ⟨rfl, hnext, e₀, he₀, hc⟩
  · obtain ⟨e₀, he₀, hc⟩ := ht.done s hlt
    rcases h.chosen_kept he₀ hc with ⟨he', -⟩ | ⟨-, he'⟩
    · rw [he', Option.some_inj] at he
      exact he ▸ ht.spent s e₀ hlt he₀
    · rw [he', Option.some_inj] at he
      exact he ▸ rfl
  · rcases h.chosen_kept he₀ hc with ⟨-, hstay⟩ | ⟨-, he'⟩
    · have := toNat_of_checkedSucc hnext
      rw [hstay rfl] at this
      omega
    · rw [he', Option.some_inj] at he
      exact he ▸ rfl

theorem lead_move (h : Move before input t t')
    (hl : t.active = true →
      t.ballot.owner = some t.id ∧ t.quorums.phase1Reached t.promises = true) :
    t'.active = true →
      t'.ballot.owner = some t'.id ∧ t'.quorums.phase1Reached t'.promises = true := by
  intro ha'
  cases h with
  | elect ballot hlog ha hn => exact absurd (ha.symm.trans ha') (by simp)
  | lead ha ho hq => exact ⟨ho, hq⟩
  | execute t' e hs hc h =>
    obtain ⟨hid, hq, hb, ha, hp⟩ := Move.execute_same h
    rw [hid, hq, hb, hp]
    exact hl (ha ▸ ha')
  | follow m hi hm hlt => cases ha'
  | backOff t' h =>
    obtain ⟨hid, hq, -, hb, ha, hp⟩ := Move.backOff_same h
    rw [hid, hq, hb, hp]
    exact hl (ha ▸ ha')
  | report m log displaced hi ha hle ho h => exact absurd (ha.symm.trans ha') (by simp)
  | countPromise m log displaced hi hstart ha hm ho h =>
    exact absurd (ha.symm.trans ha') (by simp)
  | _ => exact hl ha'

/-- **Every move keeps a replica tidy.** -/
theorem move (h : Move before input t t') (ht : Tidy t.toReplica) : Tidy t'.toReplica where
  sentinel := by
    obtain ⟨e, he, hc, hnoop⟩ := ht.sentinel
    obtain ⟨e', he', hc', hcmd⟩ := h.still_chosen he hc
    exact ⟨e', he', hc', hcmd.trans hnoop⟩
  first_le := Std.le_trans ht.first_le h.cursor_le
  bounded := bounded_move h ht.bounded
  done _ := done_move h ht.done
  spent _ _ := spent_move h ht
  owning := h.owns ht.owning
  lead := lead_move h ht.lead

theorem moves (h : Moves before input t t') (ht : Tidy t.toReplica) : Tidy t'.toReplica := by
  induction h with
  | refl => exact ht
  | tail _ hmove ih => exact ih.move hmove

end Tidy

end PaxosLog
