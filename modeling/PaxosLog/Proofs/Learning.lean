import PaxosLog.Proofs.Headroom
import PaxosLog.Proofs.Conservation

/-!
# Choices are learned in any order

An announcement can fill a gap and release a burst of executions, it can replace a vote and hand its
request back, or it can come too late to change anything. Still, what a replica knows after a number
of announcements depends on what was announced only: a slot is chosen if it was before or was
announced (`Learned`), the cursor is the first slot that is not chosen, and below it everything has
been executed, in order.

**`learned_in_any_order`**: two replicas in the same state that are given the same announcements, in
different orders and some of them more than once, end up with the same choices, cursor and machine,
have executed the same commands with the same results, and have given the same replies to requests
whose commands were chosen for their slots.
-/

namespace PaxosLog

theorem le_maxCounter (n : UInt64) : n ≤ maxCounter := by
  have := n.toNat_lt
  rw [UInt64.le_iff_toNat_le]
  show n.toNat ≤ 2 ^ 64 - 1
  omega

namespace Log

/-- The command that is chosen for a slot, if one is. -/
def chosenAt (log : Log) (s : Slot) : Option Command :=
  (log.get? s).bind fun e => if e.isCommitted then some e.command else none

/-- The entry at a slot owns the request. -/
def Owns (log : Log) (s : Slot) (q : ClientRequest) : Prop :=
  ∃ e, log.get? s = some e ∧ e.request = some q

variable {log log' : Log} {s u : Slot} {b : Ballot} {c : Command} {q : ClientRequest}

theorem chosenAt_eq_some :
    log.chosenAt s = some c ↔ ∃ e, log.get? s = some e ∧ e.isCommitted = true ∧ e.command = c := by
  unfold chosenAt
  rw [Option.bind_eq_some_iff]
  refine exists_congr fun e => and_congr_right fun _ => ?_
  cases e.isCommitted <;> simp

theorem chosenAt_of_get? {e : LogEntry} (he : log.get? s = some e) :
    log.chosenAt s = if e.isCommitted then some e.command else none := by
  rw [chosenAt, he, Option.bind_some]

/-- A command that is announced is chosen from then on, unless another one was before. -/
theorem Joined.chosenAt (h : Joined log log' s ⟨c, b, true⟩) (u : Slot) :
    log'.chosenAt u = (log.chosenAt u).or (if s = u then some c else none) := by
  have hget := h.get? u
  by_cases hsu : s = u
  · subst hsu
    rw [if_pos rfl] at hget
    rw [chosenAt_of_get? hget, if_pos rfl]
    cases hs : log.get? s with
    | none => rw [Log.chosenAt, hs]; rfl
    | some e =>
      rw [chosenAt_of_get? hs]
      cases hc : e.isCommitted with
      | true => rw [LogEntry.join_of_chosen _ hc, hc]; rfl
      | false =>
        have hjoin : LogEntry.join ⟨c, b, true⟩ (some e) = (e.replaced b c).commit := by
          simp [LogEntry.join, hc]
        rw [hjoin]
        exact congrArg some (e.command_replaced b c)
  · rw [if_neg hsu] at hget
    rw [Log.chosenAt, hget, if_neg hsu, Option.or_none]
    rfl

/-- An owner keeps its request when its own command is announced. -/
theorem Joined.owns (h : Joined log log' s ⟨c, b, true⟩) (hown : log.Owning) (hq : log.Owns u q)
    (hsame : s = u → c = .client q.command ∨ log.chosenAt u ≠ none) : log'.Owns u q := by
  obtain ⟨e, he, hreq⟩ := hq
  have hcmd := hown u e q he hreq
  have hget := h.get? u
  by_cases hsu : s = u
  · subst hsu
    rw [if_pos rfl, he] at hget
    refine ⟨_, hget, ?_⟩
    cases hc : e.isCommitted with
    | true => rw [LogEntry.join_of_chosen _ hc, hreq]
    | false =>
      rcases hsame rfl with rfl | hchosen
      · simp [LogEntry.join, LogEntry.replaced, LogEntry.commit, hc, hcmd, hreq]
      · rw [chosenAt_of_get? he, hc] at hchosen
        exact absurd rfl hchosen
  · rw [if_neg hsu] at hget
    exact ⟨e, hget.trans he, hreq⟩

end Log

variable {ρ σ : Type} [StateMachine σ]

namespace Turn

variable {t t' : Turn ρ σ}

/-! ## Executing -/

/-- Executing an entry changes no choice. -/
theorem chosenAt_executeEntry {e : LogEntry} (he : t.log.get? t.log.executeCursor = some e)
    (h : t.executeEntry e = .ok t') (s : Slot) : t'.log.chosenAt s = t.log.chosenAt s := by
  obtain ⟨cursor, _, _, -, rfl, -⟩ := executeEntry_eq_ok h
  show (t.log.set t.log.executeCursor e.withoutRequest).chosenAt s = t.log.chosenAt s
  by_cases hs : t.log.executeCursor = s
  · subst hs
    rw [Log.chosenAt_of_get? he, Log.chosenAt_of_get? ((Log.get?_set _ _ _ _).trans (if_pos rfl))]
    rfl
  · simp [Log.chosenAt, hs]

/-- The owner at the cursor is answered, every other one keeps its request. -/
theorem owns_executeEntry {e : LogEntry} (he : t.log.get? t.log.executeCursor = some e)
    (hown : t.log.Owning) (h : t.executeEntry e = .ok t') {s : Slot} {q : ClientRequest}
    (hq : t.log.Owns s q) :
    t'.log.Owns s q ∨ ∃ v, .reply q ⟨s, q.command, v⟩ ∈ t'.effects := by
  obtain ⟨cursor, machine, out, -, rfl, hcase⟩ := executeEntry_cases h
  obtain ⟨f, hf, hreq⟩ := hq
  by_cases hs : t.log.executeCursor = s
  · subst hs
    rw [he, Option.some_inj] at hf
    subst hf
    have hcmd := hown _ e q he hreq
    rcases hcase with ⟨hnoop, -, -⟩ | ⟨c, hclient, -, rfl⟩
    · rw [hcmd] at hnoop; cases hnoop
    · rw [hcmd] at hclient
      cases hclient
      exact .inr ⟨(StateMachine.execute q.command t.machine).1, by simp [hreq]⟩
  · exact .inl ⟨f, ((Log.get?_set _ _ _ _).trans (if_neg hs)).trans hf, hreq⟩

/-- What execution keeps: choices, the highest slot, and the owners that it does not answer. -/
structure Settles (t t' : Turn ρ σ) : Prop where
  chosenAt : ∀ s, t'.log.chosenAt s = t.log.chosenAt s
  highest : t'.log.highestSlot = t.log.highestSlot
  effects : t.effects ⊆ t'.effects
  owning : t.log.Owning → t'.log.Owning
  owns : t.log.Owning → ∀ s q, t.log.Owns s q →
    t'.log.Owns s q ∨ ∃ v, .reply q ⟨s, q.command, v⟩ ∈ t'.effects

omit [StateMachine σ] in
theorem Settles.refl (t : Turn ρ σ) : Settles t t :=
  ⟨fun _ => rfl, rfl, List.Subset.refl _, id, fun _ _ _ hq => .inl hq⟩

omit [StateMachine σ] in
theorem Settles.trans {t₁ : Turn ρ σ} (h : Settles t t₁) (h' : Settles t₁ t') : Settles t t' where
  chosenAt s := (h'.chosenAt s).trans (h.chosenAt s)
  highest := h'.highest.trans h.highest
  effects _ hx := h'.effects (h.effects hx)
  owning hown := h'.owning (h.owning hown)
  owns hown s q hq := by
    rcases h.owns hown s q hq with hq | ⟨v, hv⟩
    · exact h'.owns (h.owning hown) s q hq
    · exact .inr ⟨v, h'.effects hv⟩

theorem settles_executeEntry {e : LogEntry} (he : t.log.get? t.log.executeCursor = some e)
    (h : t.executeEntry e = .ok t') : Settles t t' := by
  refine ⟨chosenAt_executeEntry he h, ?_, ?_, fun hown => ?_,
    fun hown s q hq => owns_executeEntry he hown h hq⟩
  all_goals obtain ⟨_, _, _, -, rfl, -⟩ := executeEntry_eq_ok h
  · rfl
  · exact List.subset_append_left _ _
  · exact hown.set _ fun r hr => by cases hr

theorem settles_executeUpTo {count : Nat} (h : t.executeUpTo count = .ok t') : Settles t t' := by
  induction count generalizing t with
  | zero => cases h; exact .refl _
  | succ count ih =>
    unfold executeUpTo at h
    split at h
    · cases h; exact .refl _
    · rename_i e he
      split at h
      · obtain ⟨t₁, h₁, h₂⟩ := bind_eq_ok.mp h
        exact (settles_executeEntry he h₁).trans (ih h₂)
      · cases h; exact .refl _

/-- **Execution fails only when there is no slot left**: every slot from the cursor on is chosen. -/
theorem error_executeUpTo {count : Nat} {f : Fault} (h : t.executeUpTo count = .error f) :
    f = .counterOverflow ∧ ∀ s, t.log.executeCursor ≤ s → t.log.chosenAt s ≠ none := by
  induction count generalizing t with
  | zero => cases h
  | succ count ih =>
    unfold executeUpTo at h
    split at h
    · cases h
    · rename_i e he
      split at h
      · rename_i hc
        have hcursor : t.log.chosenAt t.log.executeCursor ≠ none := by
          simp [Log.chosenAt_of_get? he, hc]
        rcases bind_eq_error.mp h with h | ⟨t₁, h₁, h₂⟩
        · obtain ⟨hlast, rfl⟩ := checkedSucc_eq_error (map_eq_error.mp h)
          refine ⟨rfl, fun s hs => ?_⟩
          have hmax : s ≤ t.log.executeCursor := hlast ▸ le_maxCounter s
          rwa [Std.le_antisymm hmax hs]
        · obtain ⟨rfl, hall⟩ := ih h₂
          have hkept := chosenAt_executeEntry he h₁
          obtain ⟨cursor, _, _, hnext, rfl, -⟩ := executeEntry_eq_ok h₁
          refine ⟨rfl, fun s hs => ?_⟩
          by_cases heq : t.log.executeCursor = s
          · exact heq ▸ hcursor
          · rw [← hkept s]
            refine hall s ?_
            have hnext := toNat_of_checkedSucc hnext
            rw [← UInt64.toNat_inj] at heq
            rw [UInt64.le_iff_toNat_le] at hs
            show cursor ≤ s
            rw [UInt64.le_iff_toNat_le]
            omega
      · cases h

end Turn

/-! ## Announcements -/

/-- The command that is announced for a slot, first of all. -/
def announced (commits : List Commit) (s : Slot) : Option Command :=
  (commits.find? fun m => m.slot = s).map Commit.command

theorem announced_append (commits more : List Commit) (s : Slot) :
    announced (commits ++ more) s = (announced commits s).or (announced more s) := by
  rw [announced, List.find?_append, Option.map_or]
  rfl

theorem announced_single (m : Commit) (s : Slot) :
    announced [m] s = if m.slot = s then some m.command else none := by
  by_cases h : m.slot = s <;> simp [announced, h]

theorem announced_eq_none {commits : List Commit} {s : Slot} :
    announced commits s = none ↔ ∀ m ∈ commits, m.slot ≠ s := by
  simp [announced]

theorem mem_of_announced {commits : List Commit} {s : Slot} {c : Command}
    (h : announced commits s = some c) : ∃ m ∈ commits, m.slot = s ∧ m.command = c := by
  obtain ⟨m, hm, rfl⟩ := Option.map_eq_some_iff.mp h
  exact ⟨m, List.mem_of_find?_eq_some hm, by simpa using List.find?_some hm, rfl⟩

/-- Announcements for one slot are for one command. -/
def Unanimous (commits : List Commit) : Prop :=
  ∀ m ∈ commits, ∀ m' ∈ commits, m.slot = m'.slot → m.command = m'.command

/-- Only what is announced counts, not how often and in which order. -/
theorem announced_congr {commits order : List Commit} (hone : Unanimous commits)
    (hsame : ∀ m, m ∈ order ↔ m ∈ commits) (s : Slot) :
    announced order s = announced commits s := by
  cases h : announced order s with
  | none =>
    refine (announced_eq_none.mpr fun m hm => ?_).symm
    exact announced_eq_none.mp h m ((hsame m).mpr hm)
  | some c =>
    obtain ⟨m, hm, rfl, rfl⟩ := mem_of_announced h
    cases h' : announced commits m.slot with
    | none => exact absurd rfl (announced_eq_none.mp h' m ((hsame m).mp hm))
    | some c' =>
      obtain ⟨m', hm', hslot, rfl⟩ := mem_of_announced h'
      rw [hone m' hm' m ((hsame m).mp hm) hslot]

/-- **What announcements make of a replica**: what is chosen was chosen before or is announced, the
highest slot is the highest one known before or announced, and requests whose commands are chosen
for their slots stay there or are answered. -/
structure Learned (commits : List Commit) (r r' : Replica ρ σ) (out : List Effect) : Prop where
  chosenAt : ∀ s, r'.log.chosenAt s = (r.log.chosenAt s).or (announced commits s)
  highest_le : r.log.highestSlot ≤ r'.log.highestSlot
  slot_le : ∀ m ∈ commits, m.slot ≤ r'.log.highestSlot
  highest : r'.log.highestSlot = r.log.highestSlot ∨ ∃ m ∈ commits, r'.log.highestSlot = m.slot
  owns : ∀ s q, r.log.Owns s q →
    r'.log.chosenAt s = none ∨ r'.log.chosenAt s = some (.client q.command) →
    r'.log.Owns s q ∨ ∃ v, .reply q ⟨s, q.command, v⟩ ∈ out

namespace Learned

variable {commits more : List Commit} {r r₁ r' : Replica ρ σ} {out out' : List Effect}

omit [StateMachine σ] in
theorem refl (r : Replica ρ σ) : Learned [] r r [] where
  chosenAt s := (Option.or_none).symm
  highest_le := Std.le_refl _
  slot_le := by simp
  highest := .inl rfl
  owns s q hq _ := .inl hq

omit [StateMachine σ] in
theorem trans (h : Learned commits r r₁ out) (h' : Learned more r₁ r' out') :
    Learned (commits ++ more) r r' (out ++ out') where
  chosenAt s := by rw [h'.chosenAt, h.chosenAt, announced_append, Option.or_assoc]
  highest_le := Std.le_trans h.highest_le h'.highest_le
  slot_le m hm := by
    rcases List.mem_append.mp hm with hm | hm
    · exact Std.le_trans (h.slot_le m hm) h'.highest_le
    · exact h'.slot_le m hm
  highest := by
    rcases h'.highest with heq | ⟨m, hm, heq⟩
    · rw [heq]
      exact h.highest.imp_right fun ⟨m, hm, heq⟩ => ⟨m, List.mem_append_left _ hm, heq⟩
    · exact .inr ⟨m, List.mem_append_right _ hm, heq⟩
  owns s q hq hend := by
    -- what is chosen in between is chosen at the end
    have hmid : r₁.log.chosenAt s = none ∨ r₁.log.chosenAt s = some (.client q.command) := by
      cases hc : r₁.log.chosenAt s with
      | none => exact .inl rfl
      | some c =>
        rw [h'.chosenAt, hc, Option.some_or] at hend
        exact hend
    rcases h.owns s q hq hmid with hq | ⟨v, hv⟩
    · exact (h'.owns s q hq hend).imp_right fun ⟨v, hv⟩ => ⟨v, List.mem_append_right _ hv⟩
    · exact .inr ⟨v, List.mem_append_left _ hv⟩

omit [StateMachine σ] in
/-- The highest slot depends on what is announced only. -/
theorem highest_eq {order : List Commit} {r₂ : Replica ρ σ} (h : Learned commits r r₁ out)
    (h' : Learned order r r₂ out') (hsame : ∀ m, m ∈ order ↔ m ∈ commits) :
    r₁.log.highestSlot = r₂.log.highestSlot := by
  refine Std.le_antisymm ?_ ?_
  · rcases h.highest with heq | ⟨m, hm, heq⟩
    · exact heq ▸ h'.highest_le
    · exact heq ▸ h'.slot_le m ((hsame m).mpr hm)
  · rcases h'.highest with heq | ⟨m, hm, heq⟩
    · exact heq ▸ h.highest_le
    · exact heq ▸ h.slot_le m ((hsame m).mp hm)

omit [StateMachine σ] in
/-- An owner below the cursor whose command was chosen has been answered. -/
theorem replied (h : Learned commits r r' out) (ht : Tidy r') {s : Slot} {q : ClientRequest}
    (hq : r.log.Owns s q) (hlt : s < r'.log.executeCursor)
    (hend : r'.log.chosenAt s = some (.client q.command)) :
    ∃ v, .reply q ⟨s, q.command, v⟩ ∈ out := by
  rcases h.owns s q hq (.inr hend) with ⟨e, he, hreq⟩ | hreply
  · rw [ht.spent s e hlt he] at hreq
    cases hreq
  · exact hreply

end Learned

section Announcements

variable {t t' : Turn ρ σ} {m : Commit}

theorem Turn.learned_onCommit (ht : Tidy t.toReplica) (h : t.onCommit m = .ok t') :
    Learned [m] t.toReplica t'.toReplica t'.effects := by
  unfold onCommit at h
  by_cases h0 : m.slot = Slot.sentinel
  · rw [if_pos h0] at h
    cases h
    obtain ⟨e, he, hc, -⟩ := ht.sentinel
    refine ⟨fun s => ?_, Std.le_refl _, fun m' hm' => ?_, .inl rfl, fun s q hq _ => .inl hq⟩
    · rw [announced_single]
      by_cases hs : m.slot = s
      · rw [← hs, h0, Log.chosenAt_of_get? he, hc]
        rfl
      · rw [if_neg hs, Option.or_none]
    · rw [List.mem_singleton.mp hm', h0]
      exact UInt64.le_iff_toNat_le.mpr (Nat.zero_le _)
  · rw [if_neg h0] at h
    obtain ⟨⟨log, displaced⟩, hlearn, h⟩ := bind_eq_ok.mp h
    have hj := Log.joined_learn hlearn
    have hset := settles_executeUpTo h
    have hchosen : ∀ s, t'.log.chosenAt s =
        (t.log.chosenAt s).or (if m.slot = s then some m.command else none) :=
      fun s => (hset.chosenAt s).trans (hj.chosenAt s)
    have hhigh : t'.log.highestSlot = (t.log.observe m.slot).highestSlot := by
      rw [Log.highestSlot_observe]
      exact hset.highest.trans hj.highest
    obtain ⟨hle, hslot⟩ := t.log.le_highestSlot_observe m.slot
    refine ⟨fun s => ?_, hhigh ▸ hle, fun m' hm' => ?_, ?_, fun s q hq hend => ?_⟩
    · rw [announced_single]
      exact hchosen s
    · rw [List.mem_singleton.mp hm', hhigh]
      exact hslot
    · rw [hhigh]
      unfold Log.observe
      split
      · exact .inr ⟨m, List.mem_singleton_self m, rfl⟩
      · exact .inl rfl
    · refine hset.owns (ht.owning.joined hj) s q (hj.owns ht.owning hq fun hs => ?_)
      rw [hchosen, if_pos hs] at hend
      cases hc : t.log.chosenAt s with
      | some c => exact .inr (by simp)
      | none =>
        rw [hc, Option.none_or] at hend
        exact .inl (by simpa using hend)

/-- An announcement stops a replica only when there is no slot left. -/
theorem Turn.error_onCommit {f : Fault} (h : t.onCommit m = .error f) :
    f = .counterOverflow ∧ ∀ s, t.log.executeCursor ≤ s →
      (t.log.chosenAt s).or (announced [m] s) ≠ none := by
  unfold onCommit at h
  split at h
  · cases h
  · rcases bind_eq_error.mp h with h | ⟨⟨log, displaced⟩, hlearn, h⟩
    · exact absurd h (Log.learn_ne_error _ _ _ _ _)
    · have hj := Log.joined_learn hlearn
      obtain ⟨rfl, hall⟩ := error_executeUpTo h
      refine ⟨rfl, fun s hs => ?_⟩
      rw [announced_single, ← hj.chosenAt s]
      exact hall s (by rw [← hj.cursor] at hs; exact hs)

end Announcements

/-! ## One announcement after another -/

variable [RandomSource ρ]

namespace Replica

/-- Announcements as inputs, each at its time. -/
def announcements (heard : List (Duration × Commit)) : List (Duration × Input) :=
  heard.map fun p => (p.1, .message (.commit p.2))

variable {r r' : Replica ρ σ} {out : List Effect}

/-- Inputs that are handled one after another are a run. -/
theorem run_of_handleAll {timed : List (Duration × Input)}
    (h : handleAll timed r = .ok (r', out)) : r.Run (timed.map Prod.snd) r' out := by
  induction timed generalizing r out with
  | nil => cases h; exact .start
  | cons x rest ih =>
    obtain ⟨now, input⟩ := x
    obtain ⟨⟨r₁, out₁⟩, hs, h⟩ := bind_eq_ok.mp h
    obtain ⟨⟨r₂, out₂⟩, hrest, h⟩ := bind_eq_ok.mp h
    cases h
    exact (Run.start.step now input hs).append (ih hrest)

variable {heard : List (Duration × Commit)}

/-- **What is known after some announcements.** -/
theorem learned_of_handleAll (ht : Tidy r)
    (h : handleAll (announcements heard) r = .ok (r', out)) :
    Learned (heard.map Prod.snd) r r' out := by
  induction heard generalizing r out with
  | nil => cases h; exact .refl _
  | cons x rest ih =>
    obtain ⟨now, m⟩ := x
    obtain ⟨⟨r₁, out₁⟩, hs, h⟩ := bind_eq_ok.mp h
    obtain ⟨⟨r₂, out₂⟩, hrest, h⟩ := bind_eq_ok.mp h
    cases h
    have ht₁ : Tidy r₁ := (Run.start.step now _ hs).tidy ht
    obtain ⟨t₁, hcommit, heq⟩ := map_eq_ok.mp hs
    cases heq
    have hfirst : Learned [m] r t₁.toReplica t₁.effects :=
      Turn.learned_onCommit (t := { r with now, effects := [] }) ht hcommit
    exact hfirst.trans (ih ht₁ hrest)

/-- **Announcements stop a replica only when there is no slot left**, whatever their order. -/
theorem error_of_handleAll {f : Fault} (ht : Tidy r)
    (h : handleAll (announcements heard) r = .error f) :
    f = .counterOverflow ∧ ∀ s, r.log.executeCursor ≤ s →
      (r.log.chosenAt s).or (announced (heard.map Prod.snd) s) ≠ none := by
  induction heard generalizing r with
  | nil => cases h
  | cons x rest ih =>
    obtain ⟨now, m⟩ := x
    have hsplit : ∀ s, announced (((now, m) :: rest).map Prod.snd) s =
        (announced [m] s).or (announced (rest.map Prod.snd) s) :=
      announced_append [m] (rest.map Prod.snd)
    rcases bind_eq_error.mp h with h | ⟨⟨r₁, out₁⟩, hs, h⟩
    · obtain ⟨rfl, hall⟩ := Turn.error_onCommit (map_eq_error.mp h)
      refine ⟨rfl, fun s hle => ?_⟩
      rw [hsplit, ← Option.or_assoc]
      have := hall s hle
      simp_all
    · rcases bind_eq_error.mp h with h | ⟨p, -, h⟩
      · have ht₁ : Tidy r₁ := (Run.start.step now _ hs).tidy ht
        obtain ⟨rfl, hall⟩ := ih ht₁ h
        refine ⟨rfl, fun s hle => ?_⟩
        have hfirst : Learned [m] r r₁ out₁ := by
          obtain ⟨t₁, hcommit, heq⟩ := map_eq_ok.mp hs
          cases heq
          exact Turn.learned_onCommit (t := { r with now, effects := [] }) ht hcommit
        rw [hsplit, ← Option.or_assoc, ← hfirst.chosenAt]
        by_cases hs₁ : r₁.log.executeCursor ≤ s
        · exact hall s hs₁
        · obtain ⟨e, he, hc⟩ := ht₁.done s (Std.not_le.mp hs₁)
          rw [Log.chosenAt_of_get? he, hc]
          simp
      · cases h

end Replica

/-! ## What does not depend on the order -/

section Order

variable {r₁ r₂ : Replica ρ σ} {machine : σ} {effects₁ effects₂ : List Effect}

omit [RandomSource ρ] [StateMachine σ] in
theorem cursor_le_of_chosenAt (h₁ : Tidy r₁) (h₂ : r₂.log.Idle)
    (hsame : ∀ s, r₁.log.chosenAt s = r₂.log.chosenAt s) :
    r₁.log.executeCursor ≤ r₂.log.executeCursor := by
  by_contra hlt
  obtain ⟨e, he, hc⟩ := h₁.done _ (Std.not_le.mp hlt)
  have hchosen := hsame r₂.log.executeCursor
  rw [Log.chosenAt_of_get? he, hc, if_pos rfl, eq_comm, Log.chosenAt_eq_some] at hchosen
  obtain ⟨e', he', hc', -⟩ := hchosen
  exact absurd ((h₂ e' he').symm.trans hc') (by simp)

omit [RandomSource ρ] [StateMachine σ] in
/-- **The cursor is the first slot that is not chosen.** -/
theorem cursor_eq_of_chosenAt (h₁ : Tidy r₁) (h₂ : Tidy r₂) (hidle₁ : r₁.log.Idle)
    (hidle₂ : r₂.log.Idle) (hsame : ∀ s, r₁.log.chosenAt s = r₂.log.chosenAt s) :
    r₁.log.executeCursor = r₂.log.executeCursor :=
  Std.le_antisymm (cursor_le_of_chosenAt h₁ hidle₂ hsame)
    (cursor_le_of_chosenAt h₂ hidle₁ fun s => (hsame s).symm)

omit [RandomSource ρ] [StateMachine σ] in
/-- Below the cursor commands are chosen ones. -/
theorem Tidy.payloadAt_eq (h : Tidy r₁) {s : Slot} (hs : s < r₁.log.executeCursor) :
    r₁.log.payloadAt s = (r₁.log.chosenAt s).bind fun c => c.payload?.map (s, ·) := by
  obtain ⟨e, he, hc⟩ := h.done s hs
  rw [Log.chosenAt_of_get? he, hc, Log.payloadAt, he]
  rfl

omit [RandomSource ρ] [StateMachine σ] in
/-- What is chosen determines what there is to execute. -/
theorem applied_eq_of_chosenAt (h₁ : Tidy r₁) (h₂ : Tidy r₂) (hidle₁ : r₁.log.Idle)
    (hidle₂ : r₂.log.Idle) (hsame : ∀ s, r₁.log.chosenAt s = r₂.log.chosenAt s) :
    r₁.log.applied = r₂.log.applied := by
  have hcursor := cursor_eq_of_chosenAt h₁ h₂ hidle₁ hidle₂ hsame
  rw [Log.applied, Log.applied, ← hcursor]
  refine List.filterMap_congr fun s hs => ?_
  have hlt := (Slot.mem_below.mp hs).2
  rw [h₁.payloadAt_eq hlt, h₂.payloadAt_eq (hcursor ▸ hlt), hsame]

/-- Executions are what was executed and what came of it. -/
theorem executions_ext {xs ys : List Execution}
    (h : xs.map (fun x => (x.slot, x.command)) = ys.map fun x => (x.slot, x.command))
    (hvalue : xs.map Execution.value = ys.map Execution.value) : xs = ys := by
  induction xs generalizing ys with
  | nil => cases ys <;> simp_all
  | cons x xs ih =>
    cases ys with
    | nil => simp at h
    | cons y ys =>
      obtain ⟨slot, command, value⟩ := x
      obtain ⟨slot', command', value'⟩ := y
      simp only [List.map_cons, List.cons.injEq, Prod.mk.injEq] at h hvalue
      obtain ⟨⟨rfl, rfl⟩, h⟩ := h
      obtain ⟨rfl, hvalue⟩ := hvalue
      rw [ih h hvalue]

omit [RandomSource ρ] in
/-- What there is to execute determines what was executed, and the machine. -/
theorem Executed.unique (h₁ : Executed machine effects₁ r₁) (h₂ : Executed machine effects₂ r₂)
    (hsame : r₁.log.applied = r₂.log.applied) :
    executions effects₁ = executions effects₂ ∧ r₁.machine = r₂.machine := by
  have happlied := h₁.applied.trans (hsame.trans h₂.applied.symm)
  have hcommands : (executions effects₁).map Execution.command =
      (executions effects₂).map Execution.command := by
    simpa [List.map_map, Function.comp_def] using congrArg (List.map Prod.snd) happlied
  have hresults := h₁.results
  rw [hcommands, h₂.results, Prod.mk.injEq] at hresults
  exact ⟨executions_ext happlied hresults.1.symm, hresults.2.symm⟩

omit [RandomSource ρ] [StateMachine σ] in
/-- One request is answered from a slot. -/
theorem Answered.unique (ha : Answered effects₁ r₁)
    (hnodup : ((executions effects₁).map Execution.slot).Nodup) {q q' : ClientRequest}
    {a a' : CommandReply} (h : (q, a) ∈ answers effects₁) (h' : (q', a') ∈ answers effects₁)
    (hslot : a.slot = a'.slot) : q = q' ∧ a = a' :=
  Prod.mk.inj (List.inj_on_of_nodup_map (hnodup.sublist ha.once) h h' hslot)

end Order

/-! ## Two orders -/

section

variable {id : ReplicaId} {n : Nat} {config : Config} {source : ρ} {machine : σ}
  {fresh r r₁ r₂ : Replica ρ σ} {inputs : List Input} {effects out₁ out₂ : List Effect}
  {first second : List (Duration × Commit)}

open Replica in
/-- Two orders that both come to their end. -/
theorem Learned.same_outcome (hstart : Replica.start id n config source machine = .ok fresh)
    (hrun : fresh.Run inputs r effects) (hone : Unanimous (first.map Prod.snd))
    (hsame : ∀ m, m ∈ second.map Prod.snd ↔ m ∈ first.map Prod.snd)
    (h₁ : handleAll (announcements first) r = .ok (r₁, out₁))
    (h₂ : handleAll (announcements second) r = .ok (r₂, out₂)) :
    (∀ s, r₁.log.chosenAt s = r₂.log.chosenAt s) ∧
    r₁.log.executeCursor = r₂.log.executeCursor ∧ r₁.log.highestSlot = r₂.log.highestSlot ∧
    executions out₁ = executions out₂ ∧ r₁.machine = r₂.machine ∧
    ∀ s e q, r.log.get? s = some e → e.request = some q → s < r₁.log.executeCursor →
      r₁.log.chosenAt s = some e.command →
        ∃ a, a.slot = s ∧ a.command = q.command ∧ .reply q a ∈ out₁ ∧ .reply q a ∈ out₂ ∧
          ∀ q' a', .reply q' a' ∈ out₁ ++ out₂ → a'.slot = s → q' = q ∧ a' = a := by
  have hf := Tidy.start hstart
  have ht := hrun.tidy hf
  have hl₁ := learned_of_handleAll ht h₁
  have hl₂ := learned_of_handleAll ht h₂
  have hrun₁ := hrun.append (run_of_handleAll h₁)
  have hrun₂ := hrun.append (run_of_handleAll h₂)
  have ht₁ := hrun₁.tidy hf
  have ht₂ := hrun₂.tidy hf
  have hidle₁ := (hrun₁.rested hf (.start hstart)).idle
  have hidle₂ := (hrun₂.rested hf (.start hstart)).idle
  have hchosen : ∀ s, r₁.log.chosenAt s = r₂.log.chosenAt s := fun s => by
    rw [hl₁.chosenAt, hl₂.chosenAt, announced_congr hone hsame]
  have hcursor := cursor_eq_of_chosenAt ht₁ ht₂ hidle₁ hidle₂ hchosen
  have hx₁ := Executed.of_run hf (.start hstart) hrun₁
  have hx₂ := Executed.of_run hf (.start hstart) hrun₂
  obtain ⟨hexec, hmachine⟩ :=
    hx₁.unique hx₂ (applied_eq_of_chosenAt ht₁ ht₂ hidle₁ hidle₂ hchosen)
  refine ⟨hchosen, hcursor, hl₁.highest_eq hl₂ hsame, ?_, hmachine, ?_⟩
  · rw [executions_append, executions_append] at hexec
    exact List.append_cancel_left hexec
  intro s e q he hq hlt hend
  rw [ht.owning s e q he hq] at hend
  have hmem : ∀ {q a} {out : List Effect}, .reply q a ∈ out →
      (q, a) ∈ answers (effects ++ out) := fun h =>
    List.mem_filterMap.mpr ⟨_, List.mem_append_right _ h, rfl⟩
  have ha₁ := Answered.of_run hf hrun₁
  have ha₂ := Answered.of_run hf hrun₂
  obtain ⟨v₁, hv₁⟩ := hl₁.replied ht₁ ⟨e, he, hq⟩ hlt hend
  obtain ⟨v₂, hv₂⟩ := hl₂.replied ht₂ ⟨e, he, hq⟩ (hcursor ▸ hlt) (hchosen s ▸ hend)
  -- both replies report the one execution of the slot
  have hrun₁ := (ha₁.sound q _ (hmem hv₁)).2.1
  have hrun₂ := (ha₂.sound q _ (hmem hv₂)).2.1
  rw [← hexec] at hrun₂
  obtain rfl : v₁ = v₂ :=
    congrArg Execution.value (List.inj_on_of_nodup_map hx₁.nodup hrun₁ hrun₂ rfl)
  refine ⟨_, rfl, rfl, hv₁, hv₂, fun q' a' hx hslot => ?_⟩
  rcases List.mem_append.mp hx with hx | hx
  · exact ha₁.unique hx₁.nodup (hmem hx) (hmem hv₁) hslot
  · exact ha₂.unique hx₂.nodup (hmem hx) (hmem hv₂) hslot

open Replica in
/-- Where the announcements come to their end, some slot is neither chosen nor announced: the one at
the cursor. -/
theorem Learned.exists_open (hf : Tidy fresh) (hr : Rested fresh)
    (hrun : fresh.Run inputs r effects) (h : handleAll (announcements first) r = .ok (r₁, out₁)) :
    ∃ s, r.log.executeCursor ≤ s ∧
      (r.log.chosenAt s).or (announced (first.map Prod.snd) s) = none := by
  have ht := hrun.tidy hf
  have hidle := ((hrun.append (run_of_handleAll h)).rested hf hr).idle
  have hnone : r₁.log.chosenAt r₁.log.executeCursor = none := by
    rw [Option.eq_none_iff_forall_ne_some]
    intro c hc
    obtain ⟨e, he, hcom, -⟩ := Log.chosenAt_eq_some.mp hc
    exact absurd ((hidle e he).symm.trans hcom) (by simp)
  rw [(learned_of_handleAll ht h).chosenAt] at hnone
  refine ⟨_, ?_, hnone⟩
  by_contra hlt
  obtain ⟨e, he, hc⟩ := ht.done _ (Std.not_le.mp hlt)
  rw [Log.chosenAt_of_get? he, hc] at hnone
  cases hnone

open Replica in
/-- **Choices are learned in any order.** Whatever a replica was given before, let it be given
announcements of choices in two ways that differ only in their order, in repetitions and in the
times; announcements for one slot are for one command. Then afterwards the same slots are chosen for
the same commands, and the cursor, the highest slot and the state machine are the same. The
commands executed meanwhile are the same, in the same order and with the same results. Every request
owned before by an entry that is below the cursor in the end, with its own command, has been
answered, and with the same reply, which is the only one from that slot. The single exception is a
replica that has no slot left, as every slot is chosen or announced: it stops either way. -/
theorem learned_in_any_order (hstart : Replica.start id n config source machine = .ok fresh)
    (hrun : fresh.Run inputs r effects) (hone : Unanimous (first.map Prod.snd))
    (hsame : ∀ m, m ∈ second.map Prod.snd ↔ m ∈ first.map Prod.snd) :
    (∃ r₁ out₁ r₂ out₂, handleAll (announcements first) r = .ok (r₁, out₁) ∧
      handleAll (announcements second) r = .ok (r₂, out₂) ∧
      (∀ s, r₁.log.chosenAt s = r₂.log.chosenAt s) ∧
      r₁.log.executeCursor = r₂.log.executeCursor ∧ r₁.log.highestSlot = r₂.log.highestSlot ∧
      executions out₁ = executions out₂ ∧ r₁.machine = r₂.machine ∧
      ∀ s e q, r.log.get? s = some e → e.request = some q → s < r₁.log.executeCursor →
        r₁.log.chosenAt s = some e.command →
          ∃ a, a.slot = s ∧ a.command = q.command ∧ .reply q a ∈ out₁ ∧ .reply q a ∈ out₂ ∧
            ∀ q' a', .reply q' a' ∈ out₁ ++ out₂ → a'.slot = s → q' = q ∧ a' = a) ∨
    handleAll (announcements first) r = .error .counterOverflow ∧
      handleAll (announcements second) r = .error .counterOverflow ∧
      ∀ s, r.log.chosenAt s ≠ none ∨ ∃ m ∈ first.map Prod.snd, m.slot = s := by
  have hf := Tidy.start hstart
  have ht := hrun.tidy hf
  have hannounced := announced_congr hone hsame
  -- one order stops only if there is no slot left, and then so does the other
  cases h₁ : handleAll (announcements first) r with
  | ok p =>
    cases h₂ : handleAll (announcements second) r with
    | ok p' =>
      exact .inl ⟨p.1, p.2, p'.1, p'.2, rfl, rfl, Learned.same_outcome hstart hrun hone hsame h₁ h₂⟩
    | error f =>
      obtain ⟨s, hs, hnone⟩ := Learned.exists_open hf (.start hstart) hrun h₁
      rw [← hannounced] at hnone
      exact absurd hnone ((error_of_handleAll ht h₂).2 s hs)
  | error f =>
    obtain ⟨rfl, hall⟩ := error_of_handleAll ht h₁
    cases h₂ : handleAll (announcements second) r with
    | ok p' =>
      obtain ⟨s, hs, hnone⟩ := Learned.exists_open hf (.start hstart) hrun h₂
      rw [hannounced] at hnone
      exact absurd hnone (hall s hs)
    | error f' =>
      obtain ⟨rfl, -⟩ := error_of_handleAll ht h₂
      refine .inr ⟨rfl, rfl, fun s => ?_⟩
      by_cases hs : r.log.executeCursor ≤ s
      · by_cases hc : r.log.chosenAt s = none
        · have hann := hall s hs
          rw [hc, Option.none_or] at hann
          obtain ⟨c, hann⟩ := Option.ne_none_iff_exists'.mp hann
          obtain ⟨m, hm, hslot, -⟩ := mem_of_announced hann
          exact .inr ⟨m, hm, hslot⟩
        · exact .inl hc
      · obtain ⟨e, he, hc⟩ := ht.done s (Std.not_le.mp hs)
        exact .inl (by simp [Log.chosenAt_of_get? he, hc])

/-- Replica 1 leads and has proposed two requests. It hears of the choices for the first three
slots, with its own commands in two of them: once in order, and once in reverse and repeatedly. -/
theorem learned_in_any_order_reversed :
    let ordered : List (Duration × Commit) := [(.zero, ⟨⟨1, some 1⟩, 1, .client [65]⟩),
      (.zero, ⟨⟨1, some 1⟩, 2, .client [66]⟩), (.zero, ⟨⟨2, some 2⟩, 3, .noop⟩)]
    let reversed : List (Duration × Commit) := [(.zero, ⟨⟨2, some 2⟩, 3, .noop⟩),
      (.zero, ⟨⟨1, some 1⟩, 2, .client [66]⟩), (.zero, ⟨⟨2, some 2⟩, 3, .noop⟩),
      (.zero, ⟨⟨1, some 1⟩, 1, .client [65]⟩)]
    ∃ (r r₁ r₂ : Replica Script Journal) (out₁ out₂ : List Effect) (a : CommandReply),
      Replica.handleAll (Replica.announcements ordered) r = .ok (r₁, out₁) ∧
      Replica.handleAll (Replica.announcements reversed) r = .ok (r₂, out₂) ∧
      executions out₁ = executions out₂ ∧ r₁.log.executeCursor = r₂.log.executeCursor ∧
      a.slot = 2 ∧ .reply ⟨1, [66]⟩ a ∈ out₁ ∧ .reply ⟨1, [66]⟩ a ∈ out₂ := by
  intro ordered reversed
  obtain ⟨r, effects, hrun, howner, hopen, hend⟩ := Replica.Run.exists_of_feed
    (Network.trio.replica 1)
    [.request ⟨0, [65]⟩, .message (.promise ⟨⟨1, some 1⟩, 2, ∅⟩), .request ⟨1, [66]⟩]
    (fun p => (p.1.log.get? 2).bind LogEntry.request = some ⟨1, [66]⟩ ∧
      p.1.log.chosenAt 4 = none ∧
      ((Replica.handleAll (Replica.announcements ordered) p.1).toOption.any fun q =>
        2 < q.1.log.executeCursor ∧ q.1.log.chosenAt 2 = some (.client [66])) = true)
    (by decide +kernel)
  have hstart : Replica.start 1 3 .standard (⟨[]⟩ : Script) Journal.empty =
      .ok (Network.trio.replica 1) := rfl
  have hone : Unanimous (ordered.map Prod.snd) := by simp [Unanimous, ordered]
  have hsame : ∀ m, m ∈ reversed.map Prod.snd ↔ m ∈ ordered.map Prod.snd := by
    intro m
    simp only [ordered, reversed, List.map_cons, List.map_nil, List.mem_cons, List.not_mem_nil,
      or_false]
    grind
  rcases learned_in_any_order hstart hrun hone hsame with
    ⟨r₁, out₁, r₂, out₂, h₁, h₂, -, hcursor, -, hexec, -, hreply⟩ | ⟨-, -, hall⟩
  · rw [h₁] at hend
    obtain ⟨hlt, hchosen⟩ := of_decide_eq_true hend
    obtain ⟨e, he, hq⟩ := Option.bind_eq_some_iff.mp howner
    have hcmd := (hrun.tidy (Tidy.start hstart)).owning 2 e _ he hq
    obtain ⟨a, hslot, -, hr₁, hr₂, -⟩ := hreply 2 e _ he hq hlt (by rw [hchosen, hcmd])
    exact ⟨r, r₁, r₂, out₁, out₂, a, h₁, h₂, hexec, hcursor, hslot, hr₁, hr₂⟩
  · rcases hall 4 with hchosen | ⟨m, hm, hslot⟩
    · exact absurd hopen hchosen
    · have hnone : ∀ m ∈ ordered.map Prod.snd, m.slot ≠ 4 := by decide
      exact absurd hslot (hnone m hm)

end

end PaxosLog
