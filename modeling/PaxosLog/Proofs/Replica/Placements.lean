import PaxosLog.Proofs.Replica.Carry

/-!
# Slots given to requests

A leader gives a request the slot after the highest one, when the request comes or when the leader
takes over and its queue is drained. The functions here are the steps of a replica with a record of
that: whenever `Turn.propose` takes a slot for a request, the slot is noted down together with the
request and the log at that moment (`Placement`).

* **`Replica.forget_stepNoting`**: apart from the record they are the steps of a replica.
-/

namespace PaxosLog

/-- A slot that was given to a request, and the log right before. -/
structure Placement where
  slot : Slot
  request : ClientRequest
  log : Log
deriving DecidableEq

variable {ρ σ : Type} [StateMachine σ]

namespace Turn

/-- Proposes a request and notes down which slot it is given. -/
def proposeNoting (p : Turn ρ σ × List Placement) (request : ClientRequest) :
    Except Fault (Turn ρ σ × List Placement) := do
  let t ← p.1.propose request
  let (slot, _) ← p.1.log.allocate
  return (t, p.2 ++ [⟨slot, request, p.1.log⟩])

/-- `takeOver` with the slots that the waiting requests are given. -/
def takeOverNoting (t : Turn ρ σ) : Except Fault (Turn ρ σ × List Placement) := do
  let t := { t with active := true }
  let t ← t.reproposeFrom t.log.span t.log.executeCursor
  let (t, placed) ← t.pending.foldlM proposeNoting ({ t with pending := [] }, [])
  let t ← t.executeReady
  return (t, placed)

/-- `countPromises` with the slots of a take-over. -/
def countPromisesNoting (t : Turn ρ σ) : Except Fault (Turn ρ σ × List Placement) :=
  if t.quorums.phase1Reached t.promises then t.takeOverNoting else .ok (t, [])

/-- `elect` with the slots of a take-over. -/
def electNoting (t : Turn ρ σ) : Except Fault (Turn ρ σ × List Placement) := do
  if t.active then
    return (t, [])
  let ballot ← t.ballot.next t.id
  ({ t with ballot, promises := Quorum.empty.ack t.id }.emit
    (.broadcast (.prepare ⟨ballot, t.log.executeCursor⟩))).countPromisesNoting

/-- `onRequest` with the slots that requests are given. -/
def onRequestNoting (t : Turn ρ σ) (request : ClientRequest) :
    Except Fault (Turn ρ σ × List Placement) :=
  if t.active then proposeNoting (t, []) request
  else
    let t := { t with pending := t.pending ++ [request] }
    if t.ballot.isOwnedBy t.id then .ok (t, []) else t.electNoting

/-- `onBackoffElapsed` with the slots of a take-over. -/
def onBackoffElapsedNoting (t : Turn ρ σ) : Except Fault (Turn ρ σ × List Placement) :=
  t.electNoting.map fun (t, placed) => ({ t with backoff := t.backoff.fired }, placed)

variable [RandomSource ρ]

/-- `onPromise` with the slots of a take-over. -/
def onPromiseNoting (t : Turn ρ σ) (m : Promise) : Except Fault (Turn ρ σ × List Placement) := do
  if t.active ∨ m.ballot < t.ballot then
    return (t, [])
  let (log, displaced) ← t.log.merge m.log
  let t := t.withLog log displaced
  let (t, placed) ←
    if t.ballot < m.ballot then (t.observeBallot m.ballot).scheduleBackoff.map (·, [])
    else if m.ballot.isOwnedBy t.id then
      ({ t with promises := t.promises.ack m.sender } : Turn ρ σ).countPromisesNoting
    else pure (t, [])
  let t ← t.executeReady
  return (t, placed)

/-- `onInput` with the slots that requests are given. -/
def onInputNoting (t : Turn ρ σ) : Input → Except Fault (Turn ρ σ × List Placement)
  | .request r => t.onRequestNoting r
  | .message (.promise m) => t.onPromiseNoting m
  | .message m => (t.onMessage m).map (·, [])
  | .elect => t.electNoting
  | .backoffElapsed => t.onBackoffElapsedNoting

end Turn

/-- A step with the slots that requests are given in it, in the order in which they are. -/
def Replica.stepNoting [RandomSource ρ] (now : Duration) (r : Replica ρ σ) (input : Input) :
    Except Fault ((Replica ρ σ × List Effect) × List Placement) :=
  (Turn.onInputNoting { r with now, effects := [] } input).map fun (t, placed) =>
    ((t.toReplica, t.effects), placed)

/-! ## Forgetting the record -/

/-- The outcome without the record. -/
def forget {α : Type} (x : Except Fault (α × List Placement)) : Except Fault α := x.map Prod.fst

section Forget

variable {α β : Type}

@[simp] theorem forget_ok (a : α) (placed : List Placement) :
    forget (.ok (a, placed)) = .ok a := rfl

/-- Nothing was noted down before. -/
theorem forget_bind (x : Except Fault α) (f : α → Except Fault (β × List Placement)) :
    forget (x >>= f) = x >>= fun a => forget (f a) := by
  cases x <;> rfl

/-- What follows does not look at the record. -/
theorem forget_noted_bind (x : Except Fault (α × List Placement))
    (f : α × List Placement → Except Fault (β × List Placement)) (g : α → Except Fault β)
    (h : ∀ p, forget (f p) = g p.1) : forget (x >>= f) = forget x >>= g := by
  cases x with
  | error f => rfl
  | ok p => exact h p

/-- Nothing was noted down at all. -/
theorem forget_map (x : Except Fault α) (placed : List Placement) :
    forget (x.map (·, placed)) = x := by
  cases x <;> rfl

end Forget

namespace Turn

theorem forget_proposeNoting (p : Turn ρ σ × List Placement) (request : ClientRequest) :
    forget (proposeNoting p request) = p.1.propose request := by
  unfold proposeNoting
  cases h : p.1.propose request with
  | error f => rfl
  | ok t' =>
    obtain ⟨s, -, hallocate, -⟩ := propose_eq_ok h
    rw [hallocate]
    rfl

theorem forget_proposeAllNoting (requests : List ClientRequest) (p : Turn ρ σ × List Placement) :
    forget (requests.foldlM proposeNoting p) = requests.foldlM propose p.1 := by
  induction requests generalizing p with
  | nil => rfl
  | cons request requests ih =>
    rw [List.foldlM_cons, List.foldlM_cons, ← forget_proposeNoting p request]
    exact forget_noted_bind _ _ _ ih

theorem forget_takeOverNoting (t : Turn ρ σ) : forget t.takeOverNoting = t.takeOver := by
  unfold takeOverNoting takeOver
  rw [forget_bind]
  congr 1
  funext t₁
  refine (forget_noted_bind _ _ executeReady fun p => ?_).trans ?_
  · rw [forget_bind]
    exact bind_pure _
  · rw [forget_proposeAllNoting]

theorem forget_countPromisesNoting (t : Turn ρ σ) :
    forget t.countPromisesNoting = t.countPromises := by
  unfold countPromisesNoting countPromises
  split
  · exact forget_takeOverNoting t
  · rfl

theorem forget_electNoting (t : Turn ρ σ) : forget t.electNoting = t.elect := by
  unfold electNoting elect
  split
  · rfl
  · rw [forget_bind]
    simp only [forget_countPromisesNoting]

theorem forget_onRequestNoting (t : Turn ρ σ) (request : ClientRequest) :
    forget (t.onRequestNoting request) = t.onRequest request := by
  unfold onRequestNoting onRequest
  split
  · exact forget_proposeNoting (t, []) request
  · simp only
    split
    · rfl
    · exact forget_electNoting _

theorem forget_onBackoffElapsedNoting (t : Turn ρ σ) :
    forget t.onBackoffElapsedNoting = t.onBackoffElapsed := by
  unfold onBackoffElapsedNoting onBackoffElapsed
  rw [← forget_electNoting]
  cases t.electNoting <;> rfl

variable [RandomSource ρ]

theorem forget_onPromiseNoting (t : Turn ρ σ) (m : Promise) :
    forget (t.onPromiseNoting m) = t.onPromise m := by
  -- what both do last, whichever branch was taken
  have hlast : ∀ p : Turn ρ σ × List Placement,
      forget (p.1.executeReady >>= fun t => pure (t, p.2)) = p.1.executeReady := fun p => by
    rw [forget_bind]
    exact bind_pure _
  unfold onPromiseNoting onPromise
  split
  · rfl
  · rw [forget_bind]
    congr 1
    funext ⟨log, displaced⟩
    simp only
    split
    · rw [forget_noted_bind _ _ _ hlast, forget_map]
    · split
      · rw [forget_noted_bind _ _ _ hlast, forget_countPromisesNoting]
      · exact hlast (t.withLog log displaced, [])

theorem forget_onInputNoting (t : Turn ρ σ) (input : Input) :
    forget (t.onInputNoting input) = t.onInput input := by
  cases input with
  | request request => exact forget_onRequestNoting t request
  | elect => exact forget_electNoting t
  | backoffElapsed => exact forget_onBackoffElapsedNoting t
  | message m =>
    cases m with
    | promise m => exact forget_onPromiseNoting t m
    | _ => exact forget_map _ _

end Turn

/-- **A step with its record is a step.** -/
theorem Replica.forget_stepNoting [RandomSource ρ] (now : Duration) (r : Replica ρ σ)
    (input : Input) : forget (r.stepNoting now input) = r.step now input := by
  unfold stepNoting step
  rw [← Turn.forget_onInputNoting]
  cases Turn.onInputNoting { r with now, effects := [] } input <;> rfl

end PaxosLog
