import PaxosLog.Proofs.Network
import PaxosLog.Proofs.Replica.Run

/-!
# The state machine sees the chosen prefix

A replica runs commands on its state machine one slot after another. `executions` reads off the
effects of a run what it ran, and `Log.applied` off the log what there was to run: the commands of
clients below the cursor, in the order of their slots.

* **`executed_prefix`**: after any inputs these are the same, every slot below the cursor is
  chosen, and the one at the cursor is not; and the cursor never moves back.

`Move.outcome_cases` is the step behind it: only the execution of the entry at the cursor touches
the cursor and the state machine, and brings executions and replies.
-/

namespace PaxosLog

/-- A command that was run on the state machine, with its result. -/
structure Execution where
  slot : Slot
  command : Bytes
  value : Bytes
deriving DecidableEq, Repr

/-- What the effect runs on the state machine, if it does. -/
def Effect.execution? : Effect → Option Execution
  | .execute slot command value => some ⟨slot, command, value⟩
  | _ => none

/-- What was run on the state machine, in order. -/
def executions (effects : List Effect) : List Execution := effects.filterMap Effect.execution?

/-- The results of commands that are run one after another, and the state after them. -/
def StateMachine.run {σ : Type} [StateMachine σ] : List Bytes → σ → List Bytes × σ
  | [], machine => ([], machine)
  | command :: commands, machine =>
    let first := StateMachine.execute command machine
    let rest := run commands first.2
    (first.1 :: rest.1, rest.2)

theorem StateMachine.run_append {σ : Type} [StateMachine σ] (commands more : List Bytes)
    (machine : σ) :
    run (commands ++ more) machine =
      ((run commands machine).1 ++ (run more (run commands machine).2).1,
        (run more (run commands machine).2).2) := by
  induction commands generalizing machine with
  | nil => rfl
  | cons command commands ih => simp [run, ih]

/-! ## The commands below the cursor -/

/-- The slots from the first one up to `s`, without `s`. -/
def Slot.below (s : Slot) : List Slot := (List.range' 1 (s.toNat - 1)).map UInt64.ofNat

theorem Slot.mem_below {s u : Slot} : u ∈ below s ↔ Slot.first ≤ u ∧ u < s := by
  have hs := s.toNat_lt
  simp only [below, List.mem_map, List.mem_range'_1, UInt64.le_iff_toNat_le,
    UInt64.lt_iff_toNat_lt, Slot.first, UInt64.toNat_one]
  constructor
  · rintro ⟨n, hn, rfl⟩
    rw [UInt64.toNat_ofNat_of_lt' (by simp only [UInt64.size]; omega)]
    omega
  · rintro ⟨h₁, h₂⟩
    exact ⟨u.toNat, by omega, UInt64.ofNat_toNat⟩

/-- The next slot comes last. -/
theorem Slot.below_next {s s' : Slot} (h : s.next = .ok s') (hs : Slot.first ≤ s) :
    below s' = below s ++ [s] := by
  have hnext := toNat_of_checkedSucc h
  have hs := UInt64.le_iff_toNat_le.mp hs
  change 1 ≤ s.toNat at hs
  have hlen : s'.toNat - 1 = (s.toNat - 1) + 1 := by omega
  rw [below, hlen, List.range'_1_concat, List.map_append, List.map_singleton, ← below]
  congr 2
  rw [Nat.add_sub_cancel' hs, UInt64.ofNat_toNat]

theorem Slot.nodup_below (s : Slot) : (below s).Nodup := by
  have hs := s.toNat_lt
  refine List.Nodup.map_on (fun m hm n hn heq => ?_) List.nodup_range'
  simp only [List.mem_range'_1] at hm hn
  have heq := congrArg UInt64.toNat heq
  rwa [UInt64.toNat_ofNat_of_lt' (by simp only [UInt64.size]; omega),
    UInt64.toNat_ofNat_of_lt' (by simp only [UInt64.size]; omega)] at heq

namespace Log

/-- The command of a client at a slot, if there is one. -/
def payloadAt (log : Log) (s : Slot) : Option (Slot × Bytes) :=
  (log.get? s).bind fun e => e.command.payload?.map (s, ·)

/-- The commands of clients below the cursor, in the order of their slots. -/
def applied (log : Log) : List (Slot × Bytes) :=
  (Slot.below log.executeCursor).filterMap log.payloadAt

/-- No slot is applied twice. -/
theorem nodup_applied (log : Log) : (log.applied.map Prod.fst).Nodup := by
  refine (Slot.nodup_below log.executeCursor).sublist ?_
  unfold applied
  induction Slot.below log.executeCursor with
  | nil => exact .slnil
  | cons s slots ih =>
    cases hp : log.payloadAt s with
    | none => rw [List.filterMap_cons_none hp]; exact .cons s ih
    | some p =>
      rw [List.filterMap_cons_some hp, List.map_cons]
      obtain ⟨e, -, he⟩ := Option.bind_eq_some_iff.mp hp
      obtain ⟨c, -, rfl⟩ := Option.map_eq_some_iff.mp he
      exact .cons_cons s ih

end Log

/-! ## Executions of a move -/

/-- The effect is an execution or a reply. -/
def Effect.IsOutcome : Effect → Prop
  | .execute _ _ _ => True
  | .reply _ _ => True
  | _ => False

theorem Effect.execution?_of_not_isOutcome {x : Effect} (h : ¬ x.IsOutcome) :
    x.execution? = none := by
  cases x with
  | execute s c v => exact absurd trivial h
  | _ => rfl

theorem executions_append (xs ys : List Effect) :
    executions (xs ++ ys) = executions xs ++ executions ys := List.filterMap_append

theorem executions_cons (x : Effect) (xs : List Effect) :
    executions (x :: xs) = x.execution?.toList ++ executions xs := by
  unfold executions
  cases hx : x.execution? <;> simp [hx]

theorem executions_of_not_isOutcome {xs : List Effect} (h : ∀ x ∈ xs, ¬ x.IsOutcome) :
    executions xs = [] :=
  List.filterMap_eq_nil_iff.mpr fun x hx => Effect.execution?_of_not_isOutcome (h x hx)

variable {ρ σ : Type} [RandomSource ρ] [StateMachine σ]
  {before : Replica ρ σ} {input : Input} {t t' : Turn ρ σ}

omit [StateMachine σ] in
theorem Turn.not_isOutcome_of_scheduleBackoff (h : t.scheduleBackoff = .ok t') :
    ∃ more, t'.effects = t.effects ++ more ∧ ∀ x ∈ more, ¬ x.IsOutcome := by
  rcases scheduleBackoff_cases h with ⟨-, rfl⟩ | ⟨-, _, _, rfl⟩
  · exact ⟨[], by simp, by simp⟩
  · refine ⟨_, rfl, fun x hx => ?_⟩
    rcases List.mem_append.mp hx with hx | hx
    · obtain ⟨d, -, rfl⟩ := List.mem_map.mp hx; exact id
    · rw [List.mem_singleton.mp hx]; exact id

/-- **Only execution has outcomes.** Every other move leaves the cursor and the state machine
alone, and adds effects that are neither executions nor replies. -/
theorem Move.outcome_cases (h : Move before input t t') :
    (t'.log.executeCursor = t.log.executeCursor ∧ t'.machine = t.machine ∧
      ∃ more, t'.effects = t.effects ++ more ∧ ∀ x ∈ more, ¬ x.IsOutcome) ∨
    ∃ e, t.log.get? t.log.executeCursor = some e ∧ e.isCommitted = true ∧
      t.executeEntry e = .ok t' := by
  have hretries : ∀ (requests : List ClientRequest), ∀ x ∈ requests.map Effect.retry,
      ¬ x.IsOutcome := by
    intro requests x hx
    obtain ⟨r, -, rfl⟩ := List.mem_map.mp hx
    exact id
  cases h with
  | elect ballot hlog ha hn => exact .inl ⟨rfl, rfl, _, rfl, by simp [Effect.IsOutcome]⟩
  | offer s command request ha hs hc =>
    exact .inl ⟨by simp [Turn.emit], rfl, _, rfl, by simp [Effect.IsOutcome]⟩
  | offerAgain s e ha hs hc => exact .inl ⟨rfl, rfl, _, rfl, by simp [Effect.IsOutcome]⟩
  | choose s e ho hs hc hb hq => exact .inl ⟨rfl, rfl, _, rfl, by simp [Effect.IsOutcome]⟩
  | execute t' e hs hc h => exact .inr ⟨e, hs, hc, h⟩
  | backOff t' h =>
    have hout := Turn.not_isOutcome_of_scheduleBackoff h
    obtain ⟨_, _, _, rfl, -⟩ := Turn.scheduleBackoff_eq_ok h
    exact .inl ⟨rfl, rfl, hout⟩
  | answer m candidate hi ho hle => exact .inl ⟨rfl, rfl, _, rfl, by simp [Effect.IsOutcome]⟩
  | vote m proposer log displaced hi ho hb h =>
    refine .inl ⟨(Log.joined_vote h).cursor, rfl, _, List.append_assoc _ _ _, fun x hx => ?_⟩
    rcases List.mem_append.mp hx with hx | hx
    · exact hretries _ x hx
    · rw [List.mem_singleton.mp hx]; exact id
  | refuse m proposer hi hstart ho hlt =>
    exact .inl ⟨rfl, rfl, _, rfl, by simp [Effect.IsOutcome]⟩
  | report m log displaced hi ha hle ho h =>
    exact .inl ⟨(Log.merged_merge h).cursor, rfl, _, rfl, hretries _⟩
  | countPromise m log displaced hi hstart ha hm ho h =>
    exact .inl ⟨(Log.merged_merge h).cursor, rfl, _, rfl, hretries _⟩
  | learn m log displaced hi h0 h =>
    exact .inl ⟨(Log.joined_learn h).cursor, rfl, _, rfl, hretries _⟩
  | _ => exact .inl ⟨rfl, rfl, [], by simp, by simp⟩

omit [RandomSource ρ] in
/-- Executing an entry runs its command, if that is one of a client. -/
theorem Turn.executions_executeEntry {e : LogEntry} (h : t.executeEntry e = .ok t') :
    ∃ out, t'.effects = t.effects ++ out ∧
      (executions out).map (fun x => (x.slot, x.command)) =
        (e.command.payload?.map (t.log.executeCursor, ·)).toList ∧
      StateMachine.run ((executions out).map Execution.command) t.machine =
        ((executions out).map Execution.value, t'.machine) := by
  obtain ⟨cursor, machine, out, -, rfl, hcase⟩ := executeEntry_cases h
  refine ⟨out, rfl, ?_⟩
  rcases hcase with ⟨hnoop, rfl, rfl⟩ | ⟨c, hclient, rfl, rfl⟩
  · have hnone : executions (e.request.toList.map Effect.retry) = [] :=
      executions_of_not_isOutcome fun x hx => by
        obtain ⟨r, -, rfl⟩ := List.mem_map.mp hx
        exact id
    rw [hnone, hnoop]
    exact ⟨rfl, rfl⟩
  · have hreplies : ∀ reply, executions (e.request.toList.map (Effect.reply · reply)) = [] := by
      intro reply
      cases e.request <;> rfl
    rw [executions_cons, hreplies, hclient]
    exact ⟨rfl, rfl⟩

/-- What is below the cursor keeps its command. -/
theorem Move.payloadAt_eq (h : Move before input t t') (ht : Tidy t.toReplica) {s : Slot}
    (hs : s < t.log.executeCursor) : t'.log.payloadAt s = t.log.payloadAt s := by
  obtain ⟨e, he, hc⟩ := ht.done s hs
  obtain ⟨e', he', -, hcmd⟩ := h.still_chosen he hc
  simp [Log.payloadAt, he, he', hcmd]

/-- What is below the cursor stays; if the cursor moves on, the command of the entry there is
new. -/
theorem Move.applied_eq (h : Move before input t t') (ht : Tidy t.toReplica) :
    (t'.log.executeCursor = t.log.executeCursor → t'.log.applied = t.log.applied) ∧
    (t.log.executeCursor.next = .ok t'.log.executeCursor →
      t'.log.applied = t.log.applied ++ (t'.log.payloadAt t.log.executeCursor).toList) := by
  have hsame : (Slot.below t.log.executeCursor).filterMap t'.log.payloadAt = t.log.applied :=
    List.filterMap_congr fun s hs => h.payloadAt_eq ht (Slot.mem_below.mp hs).2
  refine ⟨fun hcur => by rw [← hsame, Log.applied, hcur], fun hnext => ?_⟩
  rw [Log.applied, Slot.below_next hnext ht.first_le, List.filterMap_append, hsame]
  cases hp : t'.log.payloadAt t.log.executeCursor <;> simp [hp]

/-- What was run is what is below the cursor, and gave these results. -/
structure Executed (machine : σ) (effects : List Effect) (r : Replica ρ σ) : Prop where
  applied : (executions effects).map (fun x => (x.slot, x.command)) = r.log.applied
  results : StateMachine.run ((executions effects).map Execution.command) machine =
    ((executions effects).map Execution.value, r.machine)

namespace Executed

variable {machine : σ} {prior : List Effect}

omit [RandomSource ρ] in
theorem start {id : ReplicaId} {n : Nat} {config : Config} {source : ρ} {r : Replica ρ σ}
    (h : Replica.start id n config source machine = .ok r) : Executed machine [] r := by
  obtain ⟨quorums, rfl⟩ := Replica.start_eq_ok h
  exact ⟨rfl, rfl⟩

/-- **Every move keeps** that what was run is what is below the cursor. -/
theorem move (h : Move before input t t') (ht : Tidy t.toReplica)
    (hx : Executed machine (prior ++ t.effects) t.toReplica) :
    Executed machine (prior ++ t'.effects) t'.toReplica := by
  obtain ⟨hstay, hadvance⟩ := h.applied_eq ht
  rcases h.outcome_cases with ⟨hcur, hmachine, more, heff, hquiet⟩ | ⟨e, he, hc, hexec⟩
  · have hnone : executions (prior ++ t'.effects) = executions (prior ++ t.effects) := by
      rw [heff, ← List.append_assoc, executions_append, executions_of_not_isOutcome hquiet,
        List.append_nil]
    exact ⟨by rw [hnone, hx.applied, hstay hcur], by rw [hnone, hx.results, hmachine]⟩
  · obtain ⟨out, heff, happlied, hresults⟩ := Turn.executions_executeEntry hexec
    have hnext : t.log.executeCursor.next = .ok t'.log.executeCursor := by
      obtain ⟨_, _, _, hnext, rfl, -⟩ := Turn.executeEntry_eq_ok hexec
      exact hnext
    obtain ⟨e', he', -, hcmd⟩ := h.still_chosen he hc
    have hpay : t'.log.payloadAt t.log.executeCursor =
        e.command.payload?.map (t.log.executeCursor, ·) := by
      simp [Log.payloadAt, he', hcmd]
    have hmore : executions (prior ++ t'.effects) =
        executions (prior ++ t.effects) ++ executions out := by
      rw [heff, ← List.append_assoc, executions_append]
    refine ⟨?_, ?_⟩
    · rw [hmore, List.map_append, hx.applied, happlied, hadvance hnext, hpay]
    · rw [hmore, List.map_append, List.map_append, StateMachine.run_append, hx.results, hresults]

omit [RandomSource ρ] in
/-- What was run is below the cursor. -/
theorem slot_lt {effects : List Effect} {r : Replica ρ σ} (h : Executed machine effects r)
    {x : Execution} (hx : x ∈ executions effects) :
    Slot.first ≤ x.slot ∧ x.slot < r.log.executeCursor := by
  have hmem : (x.slot, x.command) ∈ r.log.applied :=
    h.applied ▸ List.mem_map.mpr ⟨x, hx, rfl⟩
  obtain ⟨s, hs, hp⟩ := List.mem_filterMap.mp hmem
  obtain ⟨e, -, he⟩ := Option.bind_eq_some_iff.mp hp
  obtain ⟨c, -, heq⟩ := Option.map_eq_some_iff.mp he
  cases heq
  exact Slot.mem_below.mp hs

omit [RandomSource ρ] in
/-- A command of a client below the cursor was run. -/
theorem exists_of_lt {effects : List Effect} {r : Replica ρ σ} (h : Executed machine effects r)
    {s : Slot} {e : LogEntry} {c : Bytes} (hfirst : Slot.first ≤ s)
    (hlt : s < r.log.executeCursor) (he : r.log.get? s = some e) (hc : e.command = .client c) :
    ∃ v, .execute s c v ∈ effects := by
  have hmem : (s, c) ∈ r.log.applied := by
    refine List.mem_filterMap.mpr ⟨s, Slot.mem_below.mpr ⟨hfirst, hlt⟩, ?_⟩
    rw [Log.payloadAt, he, Option.bind_some, hc]
    rfl
  rw [← h.applied] at hmem
  obtain ⟨x, hx, heq⟩ := List.mem_map.mp hmem
  obtain ⟨y, hy, hexec⟩ := List.mem_filterMap.mp hx
  cases y with
  | execute s' c' v =>
    cases hexec
    cases heq
    exact ⟨v, hy⟩
  | _ => cases hexec

omit [RandomSource ρ] in
/-- Every slot is run at most once. -/
theorem nodup {effects : List Effect} {r : Replica ρ σ} (h : Executed machine effects r) :
    ((executions effects).map Execution.slot).Nodup := by
  have happlied := congrArg (List.map Prod.fst) h.applied
  rw [List.map_map] at happlied
  exact happlied ▸ r.log.nodup_applied

/-- **What a run has run** is what is below the cursor. -/
theorem of_run {fresh r : Replica ρ σ} {inputs : List Input} {effects : List Effect}
    (hf : Tidy fresh) (hx : Executed machine [] fresh) (h : fresh.Run inputs r effects) :
    Executed machine effects r :=
  h.carried (P := fun _ _ effects r => Executed machine effects r) hf hx (fun _ _ _ _ hx => hx)
    fun _ _ _ _ _ _ _ _ ht hcarry hx => hx.move hcarry.move ht

end Executed

/-- **The state machine sees exactly the chosen prefix.** Whatever a replica was given, the
commands run on its state machine are those of clients at the slots below the cursor, in order and
each once, with the results of running them one after another. The slots below the cursor are
chosen and the one at the cursor is not. With every further input the replica goes on, and the
cursor does not move back, unless a counter is at its limit or no delay can be made. -/
theorem executed_prefix {id : ReplicaId} {n : Nat} {config : Config} {source : ρ} {machine : σ}
    {fresh r : Replica ρ σ} {inputs : List Input} {effects : List Effect}
    (hstart : Replica.start id n config source machine = .ok fresh)
    (hrun : fresh.Run inputs r effects) :
    (executions effects).map (fun x => (x.slot, x.command)) = r.log.applied ∧
    StateMachine.run ((executions effects).map Execution.command) machine =
      ((executions effects).map Execution.value, r.machine) ∧
    (∀ s, s < r.log.executeCursor → ∃ e, r.log.get? s = some e ∧ e.isCommitted = true) ∧
    (∀ e, r.log.get? r.log.executeCursor = some e → e.isCommitted = false) ∧
    ∀ now input,
      (∃ r' out, r.step now input = .ok (r', out) ∧
        r.log.executeCursor ≤ r'.log.executeCursor) ∨
      ∃ f, r.step now input = .error f ∧ r.AtLimit input f := by
  have hf := Tidy.start hstart
  have hx := Executed.of_run hf (.start hstart) hrun
  refine ⟨hx.applied, hx.results, (hrun.tidy hf).done,
    (hrun.rested hf (.start hstart)).idle, fun now input => ?_⟩
  rcases hrun.continues hf now input with ⟨r', out, hs, -⟩ | hfault
  · exact .inl ⟨r', out, hs, hrun.cursor_le hf hs⟩
  · exact .inr hfault

/-- Replica 1 is elected by replica 2, has one command chosen, proposes another, and learns what is
in the slot after it: it has run the first command and waits at the second slot. -/
theorem executed_prefix_gap : ∃ (r : Replica Script Journal) (effects : List Effect),
    r.log.executeCursor = 2 ∧ executions effects = [⟨1, [65], Decimal.bytes 1⟩] ∧
      (executions effects).map (fun x => (x.slot, x.command)) = r.log.applied ∧
      ∀ e, r.log.get? 2 = some e → e.isCommitted = false := by
  obtain ⟨r, effects, hrun, hcursor, hexec⟩ := Replica.Run.exists_of_feed
    (Network.trio.replica 1)
    [.request ⟨0, [65]⟩, .message (.promise ⟨⟨1, some 1⟩, 2, ∅⟩),
      .message (.accepted ⟨⟨1, some 1⟩, 1, 2⟩), .request ⟨1, [66]⟩,
      .message (.commit ⟨⟨1, some 1⟩, 3, .client [67]⟩)]
    (fun p => p.1.log.executeCursor = 2 ∧
      executions p.2 = [⟨1, [65], Decimal.bytes 1⟩])
    (by decide +kernel)
  have hstart : Replica.start 1 3 .standard (⟨[]⟩ : Script) Journal.empty =
      .ok (Network.trio.replica 1) := rfl
  obtain ⟨happlied, -, -, hidle, -⟩ := executed_prefix hstart hrun
  exact ⟨r, effects, hcursor, hexec, happlied, hcursor ▸ hidle⟩

end PaxosLog
