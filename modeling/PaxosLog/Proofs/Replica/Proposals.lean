import PaxosLog.Proofs.Replica.Tidy

/-!
# Proposals of a leader

A leader proposes slots of its log one after another, and each proposal may be chosen and executed
on the spot. `Proposes t t' plan` says what came of it when `t` became `t'` by proposing `plan`: the
effects are those of asking for votes for the slots of the plan, in its order; these slots hold the
proposals; and every other slot holds what it held (`Log.Keeps`). Such stretches of work can be put
together (`Proposes.trans`) as long as no slot is proposed twice.

Each function of a leader has a lemma that it succeeds, as long as there is room for its slots, and
that says what it proposes:

| function | proposes |
|---|---|
| `executeReady` | nothing |
| `repropose` | what the slot holds, if that is not chosen (`Log.proposal?`) |
| `reproposeFrom` | the same for one slot after another (`Log.reproposals`) |
| `propose` | the command of the request at the slot after the highest one |
| `propose` for a queue | the same for one request after another (`Log.additions`) |
-/

namespace PaxosLog

/-! ## Slots in a row -/

namespace Slot

/-- The slots from `s` on, `count` in number. -/
def run : (s : Slot) → (count : Nat) → List Slot
  | _, 0 => []
  | s, count + 1 => s :: run (s + 1) count

theorem next_of_lt {s : Slot} (h : s < maxCounter) : s.next = .ok (s + 1) :=
  checkedSucc_eq_ok.mpr ⟨h, rfl⟩

theorem toNat_succ {s : Slot} (h : s < maxCounter) : (s + 1).toNat = s.toNat + 1 :=
  toNat_of_checkedSucc (next_of_lt h)

theorem mem_run {s u : Slot} {count : Nat} (h : s.toNat + count ≤ maxCounter.toNat) :
    u ∈ run s count ↔ s.toNat ≤ u.toNat ∧ u.toNat < s.toNat + count := by
  induction count generalizing s with
  | zero =>
    simp only [run, List.not_mem_nil, false_iff]
    omega
  | succ count ih =>
    have hnext := toNat_succ (s := s) (by rw [UInt64.lt_iff_toNat_lt]; omega)
    rw [run, List.mem_cons, ih (by omega), ← UInt64.toNat_inj]
    omega

@[simp] theorem length_run (s : Slot) (count : Nat) : (run s count).length = count := by
  induction count generalizing s with
  | zero => rfl
  | succ count ih => rw [run, List.length_cons, ih]

end Slot

/-! ## What stays -/

/-- The slot holds what it held, up to the request of a chosen entry, which the execution of the
entry takes. -/
def Log.Keeps (log log' : Log) (s : Slot) : Prop :=
  log'.get? s = log.get? s ∨
    s < log'.executeCursor ∧ ∃ e, log.get? s = some e ∧ e.isCommitted = true ∧
      log'.get? s = some e.withoutRequest

namespace Log

variable {log log₁ log' : Log} {s : Slot}

theorem Keeps.trans (h : log.Keeps log₁ s) (h' : log₁.Keeps log' s)
    (hcursor : log₁.executeCursor ≤ log'.executeCursor) : log.Keeps log' s := by
  rcases h with h | ⟨hlt, e, he, hc, h⟩
  · rcases h' with h' | ⟨hlt', e, he', hc, h'⟩
    · exact .inl (h'.trans h)
    · exact .inr ⟨hlt', e, h ▸ he', hc, h'⟩
  · refine .inr ⟨?_, e, he, hc, ?_⟩
    · rcases h' with - | ⟨hlt', -⟩
      · exact Std.lt_of_lt_of_le hlt hcursor
      · exact hlt'
    · rcases h' with h' | ⟨-, e', he', -, h'⟩
      · exact h'.trans h
      · rw [h, Option.some_inj] at he'
        rw [h', ← he']
        rfl

/-! ### What a new leader proposes -/

/-- The proposal for a slot that is not chosen: the command that it holds, or a no-op. -/
def proposal? (log : Log) (s : Slot) : Option (Slot × Command) :=
  match log.get? s with
  | none => some (s, .noop)
  | some e => if e.isCommitted then none else some (s, e.command)

theorem Keeps.proposal?_eq (h : log.Keeps log' s) : log'.proposal? s = log.proposal? s := by
  unfold proposal?
  rcases h with h | ⟨-, e, he, hc, h⟩
  · rw [h]
  · rw [h, he]
    rfl

theorem proposal?_cases {p : Slot × Command} (h : log.proposal? s = some p) :
    p.1 = s ∧ ∀ e, log.get? s = some e → e.isCommitted = false := by
  unfold proposal? at h
  split at h
  · rename_i hs
    cases h
    exact ⟨rfl, by simp [hs]⟩
  · rename_i e he
    split at h
    · cases h
    · rename_i hc
      cases h
      refine ⟨rfl, fun f hf => ?_⟩
      rw [he, Option.some_inj] at hf
      exact hf ▸ Bool.eq_false_iff.mpr hc

theorem exists_proposal? (h : ∀ e, log.get? s = some e → e.isCommitted = false) :
    ∃ c, log.proposal? s = some (s, c) := by
  unfold proposal?
  split
  · exact ⟨_, rfl⟩
  · rename_i e he
    rw [h e he]
    exact ⟨_, rfl⟩

/-- The proposals for `count` slots from `s` on. -/
def proposals (log : Log) (s : Slot) (count : Nat) : List (Slot × Command) :=
  (Slot.run s count).filterMap log.proposal?

/-- The proposals for the slots from the cursor up to the highest one. -/
def reproposals (log : Log) : List (Slot × Command) := log.proposals log.executeCursor log.span

/-- The proposals for requests, at the slots after the highest one. -/
def additions (log : Log) (requests : List ClientRequest) : List (Slot × Command) :=
  (Slot.run (log.highestSlot + 1) requests.length).zip (requests.map fun r => .client r.command)

variable {count : Nat} {requests : List ClientRequest}

theorem proposals_succ :
    log.proposals s (count + 1) = (log.proposal? s).toList ++ log.proposals (s + 1) count := by
  unfold proposals
  rw [Slot.run, List.filterMap_cons]
  cases log.proposal? s <;> rfl

theorem proposals_eq (h : ∀ u ∈ Slot.run s count, log.Keeps log' u) :
    log'.proposals s count = log.proposals s count :=
  List.filterMap_congr fun u hu => (h u hu).proposal?_eq

theorem mem_slots_proposals {u : Slot} :
    u ∈ (log.proposals s count).map Prod.fst ↔
      u ∈ Slot.run s count ∧ ∀ e, log.get? u = some e → e.isCommitted = false := by
  rw [proposals, List.mem_map]
  constructor
  · rintro ⟨p, hp, rfl⟩
    obtain ⟨u, hu, hp⟩ := List.mem_filterMap.mp hp
    obtain ⟨rfl, hopen⟩ := proposal?_cases hp
    exact ⟨hu, hopen⟩
  · rintro ⟨hu, hopen⟩
    obtain ⟨c, hc⟩ := exists_proposal? hopen
    exact ⟨(u, c), List.mem_filterMap.mpr ⟨u, hu, hc⟩, rfl⟩

theorem mem_slots_reproposals (hroom : log.highestSlot < maxCounter) :
    s ∈ log.reproposals.map Prod.fst ↔ (log.executeCursor ≤ s ∧ s ≤ log.highestSlot) ∧
      ∀ e, log.get? s = some e → e.isCommitted = false := by
  have hlast : maxCounter.toNat = 2 ^ 64 - 1 := rfl
  have hcursor := log.executeCursor.toNat_lt
  have hspan : log.span = log.highestSlot.toNat + 1 - log.executeCursor.toNat := rfl
  rw [UInt64.lt_iff_toNat_lt] at hroom
  rw [reproposals, mem_slots_proposals, Slot.mem_run (by omega), UInt64.le_iff_toNat_le,
    UInt64.le_iff_toNat_le]
  refine and_congr_left fun _ => ?_
  omega

theorem mem_slots_additions (hroom : log.highestSlot.toNat + requests.length < maxCounter.toNat) :
    s ∈ (log.additions requests).map Prod.fst ↔
      log.highestSlot < s ∧ s.toNat ≤ log.highestSlot.toNat + requests.length := by
  have hnext := Slot.toNat_succ (s := log.highestSlot) (by rw [UInt64.lt_iff_toNat_lt]; omega)
  rw [additions, List.map_fst_zip (by simp), Slot.mem_run (by omega), UInt64.lt_iff_toNat_lt]
  omega

end Log

/-! ## What is sent -/

/-- The effects of asking for votes under a ballot, for one proposal after another. If the own vote
is enough, each proposal is announced as chosen at once. What happens in between sends nothing. -/
inductive Asks (ballot : Ballot) (alone : Bool) : List (Slot × Command) → List Effect → Prop
  | nil : Asks ballot alone [] []
  | quiet {plan : List (Slot × Command)} {x : Effect} {effects : List Effect}
      (hx : ¬ x.IsMessage) (h : Asks ballot alone plan effects) :
      Asks ballot alone plan (x :: effects)
  | ask {s : Slot} {c : Command} {plan : List (Slot × Command)} {effects : List Effect}
      (h : Asks ballot alone plan effects) :
      Asks ballot alone ((s, c) :: plan)
        (.broadcast (.accept ⟨ballot, s, c⟩) ::
          ((if alone then [.broadcast (.commit ⟨ballot, s, c⟩)] else []) ++ effects))

namespace Asks

variable {ballot : Ballot} {alone : Bool} {plan plan' : List (Slot × Command)}
  {effects effects' : List Effect}

theorem of_quiet (h : ∀ x ∈ effects, ¬ x.IsMessage) : Asks ballot alone [] effects := by
  induction effects with
  | nil => exact .nil
  | cons x effects ih => exact .quiet (h x (.head _)) (ih fun y hy => h y (.tail _ hy))

theorem append (h : Asks ballot alone plan effects) (h' : Asks ballot alone plan' effects') :
    Asks ballot alone (plan ++ plan') (effects ++ effects') := by
  induction h with
  | nil => exact h'
  | quiet hx _ ih => exact .quiet hx ih
  | ask _ ih =>
    rw [List.cons_append, List.cons_append, List.append_assoc]
    exact .ask ih

end Asks

/-! ## Stretches of proposing -/

variable {ρ σ : Type}

/-- From `t` to `t'` the leader asked for votes for `plan`, and executed what became ready. -/
structure Proposes (t t' : Turn ρ σ) (plan : List (Slot × Command)) : Prop where
  rest : t'.toReplica = { t.toReplica with log := t'.log, machine := t'.machine }
  cursor : t.log.executeCursor ≤ t'.log.executeCursor
  bounded : t'.log.Bounded
  asks : ∃ effects, t'.effects = t.effects ++ effects ∧
    Asks t.ballot (t.quorums.phase2 = 1) plan effects
  kept : ∀ s, s ∉ plan.map Prod.fst → t.log.Keeps t'.log s
  held : ∀ p ∈ plan, ∃ e, t'.log.get? p.1 = some e ∧ e.ballot = t.ballot ∧ e.command = p.2 ∧
    e.acks = Quorum.empty.ack t.id ∧ (e.isCommitted = true ↔ t.quorums.phase2 = 1)

namespace Proposes

variable {t t₁ t' : Turn ρ σ} {plan plan' : List (Slot × Command)}

theorem refl (hb : t.log.Bounded) : Proposes t t [] where
  rest := rfl
  cursor := Std.le_refl _
  bounded := hb
  asks := ⟨[], (List.append_nil _).symm, .nil⟩
  kept _ _ := .inl rfl
  held _ hp := by cases hp

/-- Two stretches that do not propose the same slot are one. -/
theorem trans (h : Proposes t t₁ plan) (h' : Proposes t₁ t' plan')
    (hapart : ∀ p ∈ plan, p.1 ∉ plan'.map Prod.fst) : Proposes t t' (plan ++ plan') where
  rest := by rw [h'.rest, h.rest]
  cursor := Std.le_trans h.cursor h'.cursor
  bounded := h'.bounded
  asks := by
    obtain ⟨effects, heq, hasks⟩ := h.asks
    obtain ⟨effects', heq', hasks'⟩ := h'.asks
    rw [h.rest] at hasks'
    exact ⟨effects ++ effects', by rw [heq', heq, List.append_assoc], hasks.append hasks'⟩
  kept s hs := by
    rw [List.map_append, List.mem_append, not_or] at hs
    exact (h.kept s hs.1).trans (h'.kept s hs.2) h'.cursor
  held p hp := by
    rcases List.mem_append.mp hp with hp | hp
    · obtain ⟨e, he, hballot, hcommand, hacks, hc⟩ := h.held p hp
      rcases h'.kept p.1 (hapart p hp) with hkept | ⟨-, f, hf, hfc, hkept⟩
      · exact ⟨e, hkept.trans he, hballot, hcommand, hacks, hc⟩
      · rw [he, Option.some_inj] at hf
        subst hf
        exact ⟨_, hkept, hballot, hcommand, hacks, hc⟩
    · have hheld := h'.held p hp
      rw [h.rest] at hheld
      exact hheld

end Proposes

variable [StateMachine σ]

namespace Turn

variable {t : Turn ρ σ}

/-! ## Executing -/

theorem proposes_executeEntry {e : LogEntry} (hb : t.log.Bounded)
    (hroom : t.log.highestSlot < maxCounter) (he : t.log.get? t.log.executeCursor = some e)
    (hc : e.isCommitted = true) :
    ∃ t', t.executeEntry e = .ok t' ∧ Proposes t t' [] ∧
      t'.log.highestSlot = t.log.highestSlot := by
  have hlt := Std.lt_of_le_of_lt (hb _ e he) hroom
  obtain ⟨t', h⟩ : ∃ t', t.executeEntry e = .ok t' :=
    ⟨_, map_eq_ok.mpr ⟨_, checkedSucc_eq_ok.mpr ⟨hlt, rfl⟩, rfl⟩⟩
  obtain ⟨cursor, machine, effects, hcur, rfl, hquiet⟩ := executeEntry_eq_ok h
  have hnext := toNat_of_checkedSucc hcur
  have hpassed : t.log.executeCursor < cursor := by rw [UInt64.lt_iff_toNat_lt]; omega
  refine ⟨_, h, ⟨rfl, Std.le_of_lt hpassed, hb.set he _, ?_, fun s _ => ?_, by simp⟩, rfl⟩
  · exact ⟨effects, rfl, .of_quiet fun x hx => Effect.not_isMessage (hquiet x hx)⟩
  · have hget := Log.get?_set t.log t.log.executeCursor s e.withoutRequest
    by_cases hs : t.log.executeCursor = s
    · rw [if_pos hs] at hget
      exact .inr ⟨hs ▸ hpassed, e, hs ▸ he, hc, hget⟩
    · rw [if_neg hs] at hget
      exact .inl hget

theorem proposes_executeUpTo {count : Nat} (hb : t.log.Bounded)
    (hroom : t.log.highestSlot < maxCounter) :
    ∃ t', t.executeUpTo count = .ok t' ∧ Proposes t t' [] ∧
      t'.log.highestSlot = t.log.highestSlot := by
  induction count generalizing t with
  | zero => exact ⟨t, rfl, .refl hb, rfl⟩
  | succ count ih =>
    unfold executeUpTo
    split
    · exact ⟨t, rfl, .refl hb, rfl⟩
    · rename_i e he
      split
      · rename_i hc
        obtain ⟨t₁, h₁, hp₁, hhigh₁⟩ := proposes_executeEntry hb hroom he hc
        obtain ⟨t', h', hp', hhigh'⟩ := ih hp₁.bounded (hhigh₁ ▸ hroom)
        exact ⟨t', bind_eq_ok.mpr ⟨t₁, h₁, h'⟩, hp₁.trans hp' (by simp), hhigh'.trans hhigh₁⟩
      · exact ⟨t, rfl, .refl hb, rfl⟩

/-- **Execution succeeds** and proposes nothing. -/
theorem proposes_executeReady (hb : t.log.Bounded) (hroom : t.log.highestSlot < maxCounter) :
    ∃ t', t.executeReady = .ok t' ∧ Proposes t t' [] ∧
      t'.log.highestSlot = t.log.highestSlot :=
  proposes_executeUpTo hb hroom

/-! ## Asking for votes -/

omit [StateMachine σ] in
/-- The own vote is the only one that a new proposal has. -/
theorem phase2Reached_own {e : LogEntry} (hacks : e.acks = Quorum.empty.ack t.id) :
    t.quorums.phase2Reached e.acks = true ↔ t.quorums.phase2 = 1 := by
  have hsize : e.acks.size = 1 := by rw [hacks, Quorum.size_ack]; rfl
  have hpos := t.quorums.phase2_pos
  rw [QuorumSpec.phase2Reached, hsize, decide_eq_true_iff]
  omega

omit [StateMachine σ] in
/-- One proposal, and the choice of it if the own vote is enough. -/
theorem proposes_one {t₁ : Turn ρ σ} {s : Slot} {e : LogEntry}
    (hrest : t₁.toReplica = { t.toReplica with log := t₁.log })
    (heffects : t₁.effects = t.effects ++ .broadcast (.accept ⟨t.ballot, s, e.command⟩) ::
      if t.quorums.phase2 = 1 then [.broadcast (.commit ⟨t.ballot, s, e.command⟩)] else [])
    (hget : ∀ u, t₁.log.get? u = if s = u then some e else t.log.get? u)
    (hcursor : t₁.log.executeCursor = t.log.executeCursor) (hb : t₁.log.Bounded)
    (hballot : e.ballot = t.ballot) (hacks : e.acks = Quorum.empty.ack t.id)
    (hc : e.isCommitted = true ↔ t.quorums.phase2 = 1) : Proposes t t₁ [(s, e.command)] where
  rest := by rw [hrest]
  cursor := hcursor ▸ Std.le_refl _
  bounded := hb
  asks := by
    have hnil : Asks t.ballot (t.quorums.phase2 = 1) [] [] := .nil
    have hask := Asks.ask (s := s) (c := e.command) hnil
    exact ⟨_, heffects, by simpa only [decide_eq_true_eq, List.append_nil] using hask⟩
  kept u hu := by
    have hne : s ≠ u := fun h => hu (by simp [h])
    exact .inl ((hget u).trans (if_neg hne))
  held p hp := by
    rw [List.mem_singleton.mp hp]
    exact ⟨e, (hget s).trans (if_pos rfl), hballot, rfl, hacks, hc⟩

/-- **Asking for votes succeeds**, for an own proposal that was just stored. -/
theorem proposes_askForVotes {log : Log} {s : Slot} {e : LogEntry}
    (hget : ∀ u, log.get? u = if s = u then some e else t.log.get? u)
    (hcursor : log.executeCursor = t.log.executeCursor) (hb : log.Bounded)
    (hroom : log.highestSlot < maxCounter) (hballot : e.ballot = t.ballot)
    (hacks : e.acks = Quorum.empty.ack t.id) (hc : e.isCommitted = false) :
    ∃ t', ({ t with log } : Turn ρ σ).askForVotes s e.command = .ok t' ∧
      Proposes t t' [(s, e.command)] ∧ t'.log.highestSlot = log.highestSlot := by
  have he : log.get? s = some e := (hget s).trans (if_pos rfl)
  have hreached := phase2Reached_own hacks
  simp only [askForVotes, countVotes, emit, he, hc]
  by_cases hone : t.quorums.phase2 = 1
  · -- The own vote is enough: the proposal is chosen, and what became ready is executed.
    rw [if_pos (by simpa using hreached.mpr hone)]
    have hp : Proposes t (({ t with log := log.set s e.commit }.emit
        (.broadcast (.accept ⟨t.ballot, s, e.command⟩))).emit
        (.broadcast (.commit ⟨e.ballot, s, e.command⟩))) [(s, e.command)] := by
      refine proposes_one (e := e.commit) rfl ?_ (fun u => ?_) hcursor (hb.set he _) hballot
        hacks ⟨fun _ => hone, fun _ => rfl⟩
      · rw [if_pos hone, hballot]
        exact List.append_assoc ..
      · show (log.set s e.commit).get? u = _
        rw [Log.get?_set, hget u]
        split <;> rfl
    obtain ⟨t', h', hp', hhigh⟩ := proposes_executeReady hp.bounded hroom
    exact ⟨t', h', hp.trans hp' (by simp), hhigh⟩
  · rw [if_neg (by simpa using fun h => hone (hreached.mp h))]
    refine ⟨_, rfl, proposes_one rfl ?_ hget hcursor hb hballot hacks ?_, rfl⟩
    · rw [if_neg hone]
    · simp [hc, hone]

/-! ## Proposing what a slot holds -/

/-- **Proposing again succeeds**, for a slot that exists. -/
theorem proposes_repropose {s : Slot} (hb : t.log.Bounded) (hroom : t.log.highestSlot < maxCounter)
    (hs : s ≤ t.log.highestSlot) :
    ∃ t', t.repropose s = .ok t' ∧ Proposes t t' (t.log.proposal? s).toList ∧
      t'.log.highestSlot = t.log.highestSlot := by
  unfold repropose Log.proposal?
  cases hentry : t.log.get? s with
  | none =>
    simp only [Log.insert_of_none hentry]
    have hhigh : (t.log.observe s).highestSlot = t.log.highestSlot :=
      Log.highestSlot_observe_of_le hs
    have hget := Log.get?_set (t.log.observe s) s (e := .proposal t.ballot .noop none t.id t.now)
    simp only [Log.get?_observe] at hget
    obtain ⟨t', h', hp, hhigh'⟩ := proposes_askForVotes hget (Log.executeCursor_observe _ _)
      (hb.of_observe (fun u hu => (hget u).trans (if_neg hu)) rfl) (hhigh ▸ hroom) rfl rfl rfl
    exact ⟨t', h', hp, hhigh'.trans hhigh⟩
  | some e =>
    by_cases hc : e.isCommitted = true
    · simp only [hc, if_true]
      exact ⟨t, rfl, .refl hb, rfl⟩
    · simp only [LogEntry.repropose, if_neg hc]
      exact proposes_askForVotes (e := e.reopened t.ballot t.id t.now) (fun u => Log.get?_set ..)
        rfl (hb.set hentry _) hroom rfl rfl (Bool.eq_false_iff.mpr hc)

/-- **Proposing slots in a row again succeeds**, if they exist. What a slot holds before its turn
comes is not touched. -/
theorem proposes_reproposeFrom {count : Nat} {s : Slot} (hb : t.log.Bounded)
    (hroom : t.log.highestSlot < maxCounter)
    (hcount : count ≤ t.log.highestSlot.toNat + 1 - s.toNat) :
    ∃ t', t.reproposeFrom count s = .ok t' ∧ Proposes t t' (t.log.proposals s count) ∧
      t'.log.highestSlot = t.log.highestSlot := by
  induction count generalizing t s with
  | zero => exact ⟨t, rfl, .refl hb, rfl⟩
  | succ count ih =>
    have hs : s ≤ t.log.highestSlot := by rw [UInt64.le_iff_toNat_le]; omega
    have hlt := Std.lt_of_le_of_lt hs hroom
    have hnext := Slot.toNat_succ hlt
    obtain ⟨t₁, h₁, hp₁, hhigh₁⟩ := proposes_repropose hb hroom hs
    obtain ⟨t', h', hp', hhigh'⟩ := ih (t := t₁) (s := s + 1) hp₁.bounded (hhigh₁ ▸ hroom)
      (by rw [hhigh₁]; omega)
    have hslots : ∀ p ∈ (t.log.proposal? s).toList, p.1 = s := fun p hp =>
      (Log.proposal?_cases (Option.mem_toList.mp hp)).1
    have hlater : s ∉ Slot.run (s + 1) count := by
      rw [UInt64.lt_iff_toNat_lt] at hroom
      rw [Slot.mem_run (by omega), hnext]
      omega
    have hplan : t₁.log.proposals (s + 1) count = t.log.proposals (s + 1) count := by
      refine Log.proposals_eq fun u hu => hp₁.kept u fun hmem => ?_
      obtain ⟨p, hp, rfl⟩ := List.mem_map.mp hmem
      exact hlater (hslots p hp ▸ hu)
    rw [hplan] at hp'
    rw [Log.proposals_succ]
    refine ⟨t', bind_eq_ok.mpr ⟨t₁, h₁, bind_eq_ok.mpr ⟨s + 1, Slot.next_of_lt hlt, h'⟩⟩,
      hp₁.trans hp' fun p hp hmem => ?_, hhigh'.trans hhigh₁⟩
    rw [hslots p hp, Log.mem_slots_proposals] at hmem
    exact hlater hmem.1

/-! ## Proposing requests -/

/-- **Proposing a request succeeds** as long as there is a slot after the next one. -/
theorem proposes_propose (request : ClientRequest) (ha : t.active = true) (hb : t.log.Bounded)
    (hroom : t.log.highestSlot.toNat + 1 < maxCounter.toNat) :
    ∃ t', t.propose request = .ok t' ∧
      Proposes t t' [(t.log.highestSlot + 1, .client request.command)] ∧
      t'.log.highestSlot = t.log.highestSlot + 1 := by
  have hlt : t.log.highestSlot < maxCounter := by rw [UInt64.lt_iff_toNat_lt]; omega
  have hnext := Slot.toNat_succ hlt
  obtain ⟨s, hs⟩ : ∃ s, s = t.log.highestSlot + 1 := ⟨_, rfl⟩
  rw [← hs] at hnext ⊢
  have hallocate : t.log.allocate = .ok (s, { t.log with highestSlot := s }) :=
    map_eq_ok.mpr ⟨s, hs ▸ Slot.next_of_lt hlt, rfl⟩
  obtain ⟨hobserve, hbelow, -⟩ := Log.allocate_eq_ok hallocate
  have hnone : (t.log.observe s).get? s = none := by
    rw [Log.get?_observe]
    by_contra hsome
    obtain ⟨e, he⟩ := Option.ne_none_iff_exists'.mp hsome
    exact absurd (hb s e he) (Std.not_le.mpr hbelow)
  have hget := Log.get?_set (t.log.observe s) s
    (e := .proposal t.ballot (.client request.command) (some request) t.id t.now)
  simp only [Log.get?_observe] at hget
  have hhigh : (t.log.observe s).highestSlot = s := by rw [← hobserve]
  obtain ⟨t', h', hp, hhigh'⟩ := proposes_askForVotes hget (Log.executeCursor_observe _ _)
    (hb.of_observe (fun u hu => (hget u).trans (if_neg hu)) rfl)
    (show (t.log.observe s).highestSlot < maxCounter by rw [hhigh, UInt64.lt_iff_toNat_lt]; omega)
    rfl rfl rfl
  refine ⟨t', ?_, hp, hhigh'.trans hhigh⟩
  unfold propose
  rw [if_pos ha]
  refine bind_eq_ok.mpr ⟨_, hallocate, bind_eq_ok.mpr ⟨(t.log.observe s).set s _, ?_, h'⟩⟩
  rw [hobserve, Log.insert_of_none hnone, Log.observe_observe]

/-- **Proposing requests in order succeeds** as long as there is a slot after those that they
take. -/
theorem proposes_proposeAll {requests : List ClientRequest} (ha : t.active = true)
    (hb : t.log.Bounded)
    (hroom : t.log.highestSlot.toNat + requests.length < maxCounter.toNat) :
    ∃ t', requests.foldlM propose t = .ok t' ∧ Proposes t t' (t.log.additions requests) ∧
      t'.log.highestSlot.toNat = t.log.highestSlot.toNat + requests.length := by
  induction requests generalizing t with
  | nil => exact ⟨t, rfl, .refl hb, rfl⟩
  | cons request requests ih =>
    rw [List.length_cons] at hroom ⊢
    have hnext := Slot.toNat_succ (s := t.log.highestSlot) (by rw [UInt64.lt_iff_toNat_lt]; omega)
    obtain ⟨t₁, h₁, hp₁, hhigh₁⟩ := proposes_propose request ha hb (by omega)
    have ha₁ : t₁.active = true := by rw [hp₁.rest]; exact ha
    have hroom₁ : t₁.log.highestSlot.toNat + requests.length < maxCounter.toNat := by
      rw [hhigh₁]; omega
    obtain ⟨t', h', hp', hhigh'⟩ := ih ha₁ hp₁.bounded hroom₁
    have hplan : t.log.additions (request :: requests) =
        [(t.log.highestSlot + 1, .client request.command)] ++ t₁.log.additions requests := by
      rw [Log.additions, Log.additions, hhigh₁]
      rfl
    rw [hplan]
    refine ⟨t', ?_, hp₁.trans hp' fun p hp hmem => ?_, by rw [hhigh', hhigh₁]; omega⟩
    · rw [List.foldlM_cons]
      exact bind_eq_ok.mpr ⟨t₁, h₁, h'⟩
    · rw [Log.mem_slots_additions hroom₁, List.mem_singleton.mp hp, hhigh₁] at hmem
      exact absurd hmem.1 Std.lt_irrefl

end Turn

end PaxosLog
