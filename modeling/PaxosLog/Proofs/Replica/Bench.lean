import PaxosLog.Proofs.Replica.Run
import PaxosLog.Replica.Bench

/-!
# What is done on a bench is a run

The bench is a replica whose inputs are given by hand (`Bench.Act.input?`); the clients, the tray
and the clock around it change nothing about the replica. So what holds of every run of a replica
(`Replica.Run`) holds of the replica on the bench.

* `Bench.run_of_step`: an act is a run of one input, or of none.
* **`Bench.run_of_acts`**: acts one after another are the run of their inputs, the reports hold
  all effects of this run, and what stops the bench is a limit that the replica has come to.
-/

namespace PaxosLog.Bench

/-- The input that an act gives the replica. -/
def Act.input? (b : Bench) : Act → Option Input
  | .submit command => some (.request (b.clients.submit command).1)
  | .deliver m => some (.message m)
  | .elect => some .elect
  | .backoffElapsed => some .backoffElapsed
  | .resubmit => b.tray.head?.map .request
  | _ => none

/-- Carries out acts one after another. -/
def carryOut : List Act → Bench → Except Fault (List Report × Bench)
  | [], b => .ok ([], b)
  | act :: acts, b => do
    let (report, b) ← b.step act
    let (reports, b) ← carryOut acts b
    return (report :: reports, b)

/-- The inputs that acts give the replica, up to one that stops the bench. -/
def inputs : List Act → Bench → List Input
  | [], _ => []
  | act :: acts, b =>
    (act.input? b).toList ++
      match b.step act with
      | .ok (_, b) => inputs acts b
      | .error _ => []

variable {b b' : Bench} {act : Act} {report : Report}

/-! ## One act -/

@[simp] theorem replica_absorb (b : Bench) (e : Effect) : (b.absorb e).replica = b.replica := by
  cases e <;> rfl

theorem replica_foldl_absorb (effects : List Effect) (b : Bench) :
    (effects.foldl absorb b).replica = b.replica := by
  induction effects generalizing b with
  | nil => rfl
  | cons e effects ih => rw [List.foldl_cons, ih, replica_absorb]

/-- An act gives the replica an input, or leaves it alone. -/
theorem step_cases (b : Bench) (act : Act) :
    (∃ (applied : Option Bool) (c : Bench), c.replica = b.replica ∧ act.input? b = none ∧
      b.step act = .ok (c.report applied [])) ∨
    ∃ (applied : Option Bool) (c : Bench) (input : Input), c.replica = b.replica ∧ c.now = b.now ∧
      act.input? b = some input ∧
      b.step act = (c.feed input).map fun (effects, b) => b.report applied effects := by
  cases act with
  | submit command =>
    exact .inr ⟨none, { b with clients := (b.clients.submit command).2 }, _, rfl, rfl, rfl, rfl⟩
  | deliver m => exact .inr ⟨none, b, _, rfl, rfl, rfl, rfl⟩
  | elect => exact .inr ⟨none, b, _, rfl, rfl, rfl, rfl⟩
  | backoffElapsed => exact .inr ⟨none, b, _, rfl, rfl, rfl, rfl⟩
  | resubmit =>
    cases htray : b.tray with
    | nil => exact .inl ⟨some false, b, rfl, by simp [Act.input?, htray], by simp [step, htray]⟩
    | cons request tray =>
      exact .inr ⟨some true, { b with tray }, .request request, rfl, rfl,
        by simp [Act.input?, htray], by simp [step, htray]⟩
  | discard =>
    cases htray : b.tray with
    | nil => exact .inl ⟨some false, b, rfl, rfl, by simp [step, htray]⟩
    | cons request tray =>
      exact .inl ⟨some true, { b with tray, clients := b.clients.lose [request] }, rfl, rfl,
        by simp [step, htray]⟩
  | hangUp ticket =>
    exact .inl ⟨some (b.clients.hangUp ticket).1, { b with clients := (b.clients.hangUp ticket).2 },
      rfl, rfl, rfl⟩
  | setClock now => exact .inl ⟨none, { b with now }, rfl, rfl, rfl⟩
  | look => exact .inl ⟨none, b, rfl, rfl, rfl⟩

/-- **An act is a run** of the input that it gives. -/
theorem run_of_step (h : b.step act = .ok (report, b')) :
    b.replica.Run (act.input? b).toList b'.replica report.effects := by
  obtain ⟨applied, c, hc, hinput, hstep⟩ | ⟨applied, c, input, hc, -, hinput, hstep⟩ :=
    step_cases b act
  · rw [hstep] at h
    cases h
    rw [hinput, ← hc]
    exact .start
  · rw [hstep] at h
    obtain ⟨⟨effects, b₁⟩, hfeed, hreport⟩ := map_eq_ok.mp h
    obtain ⟨⟨replica, out⟩, hgiven, hfold⟩ := map_eq_ok.mp hfeed
    cases hfold
    cases hreport
    have hlast : (effects.foldl absorb { c with replica }).replica = replica :=
      replica_foldl_absorb effects { c with replica }
    rw [hinput, ← hc]
    exact .step .start c.now input (hlast.symm ▸ hgiven)

/-- Only an input stops the bench. -/
theorem exists_input_of_error {f : Fault} (h : b.step act = .error f) :
    ∃ input ∈ act.input? b, b.replica.step b.now input = .error f := by
  obtain ⟨applied, c, -, -, hstep⟩ | ⟨applied, c, input, hc, hnow, hinput, hstep⟩ :=
    step_cases b act
  · rw [hstep] at h
    cases h
  · rw [hstep] at h
    exact ⟨input, hinput, hnow ▸ hc ▸ map_eq_error.mp (map_eq_error.mp h)⟩

/-! ## Acts one after another -/

theorem run_of_carryOut {acts : List Act} {reports : List Report}
    (h : b.carryOut acts = .ok (reports, b')) :
    b.replica.Run (b.inputs acts) b'.replica (reports.flatMap Report.effects) := by
  induction acts generalizing b reports with
  | nil => cases h; exact .start
  | cons act acts ih =>
    obtain ⟨⟨report, b₁⟩, hstep, h⟩ := bind_eq_ok.mp h
    obtain ⟨⟨rest, b₂⟩, hrest, h⟩ := bind_eq_ok.mp h
    cases h
    simpa [inputs, hstep] using (run_of_step hstep).append (ih hrest)

/-- **Acts on the bench are a run.** From a fresh bench on, the replica has been given the inputs of
the acts and nothing else, and the reports hold its effects in order. If an act stops the bench,
then the replica has come to a limit. -/
theorem run_of_acts {id : ReplicaId} {n : Nat} {config : Config} {draws : List UInt64}
    {fresh : Bench} {acts : List Act} {reports : List Report}
    (hstart : start id n config draws = .ok fresh)
    (h : fresh.carryOut acts = .ok (reports, b)) :
    Replica.start id n config (⟨draws⟩ : Script) Journal.empty = .ok fresh.replica ∧
    fresh.replica.Run (fresh.inputs acts) b.replica (reports.flatMap Report.effects) ∧
    ∀ act f, b.step act = .error f → ∃ input ∈ act.input? b, b.replica.AtLimit input f := by
  have hreplica : Replica.start id n config (⟨draws⟩ : Script) Journal.empty =
      .ok fresh.replica := by
    unfold start at hstart
    cases hr : Replica.start id n config (⟨draws⟩ : Script) Journal.empty with
    | error e => rw [hr] at hstart; cases hstart
    | ok replica => rw [hr] at hstart; cases hstart; rfl
  have hrun := run_of_carryOut h
  refine ⟨hreplica, hrun, fun act f hf => ?_⟩
  obtain ⟨input, hinput, hstep⟩ := exists_input_of_error hf
  exact ⟨input, hinput, atLimit_of_step (hrun.tidy (Tidy.start hreplica)) hstep⟩

end PaxosLog.Bench
