import PaxosLog.Proofs.Network.Delivery
import PaxosLog.Proofs.Replica.Reach

/-!
# Computations that a network follows

A computation that has the members of a network take steps ends in a result or in a fault. The
network follows it (`Network.Follows`) if it can take these steps: to the result, or up to a step
that fails. Such computations compose (`Network.Follows.bind`), so each is looked at once.

How often a request was submitted and handed back, and how many delays have passed, depends on the
whole past of a network. `Network.Extends` says what a stretch of steps of one member adds to all of
this.

* `Network.Reachable.elapsedOf_le`: no more delays have passed than were asked for.
* `Network.follows_step`: one step.
* `Network.Extends.trans`: two stretches are one.
* `Network.Halts.atLimit`: a computation that a reachable network follows faults only where a member
  has come to a limit.
-/

namespace PaxosLog

theorem count_retried (q : ClientRequest) (effects : List Effect) :
    (retried effects).count q = effects.count (.retry q) := by
  induction effects with
  | nil => rfl
  | cons x effects ih =>
    rw [retried_cons, List.count_append, ih, List.count_cons, Nat.add_comm]
    congr 1
    cases x <;> simp [Effect.retried?, List.count_singleton]

namespace Network

variable {ρ σ : Type}

/-! ## Requests and delays of a network -/

/-- How often a request was submitted. -/
def submissions (net : Network ρ σ) (q : ClientRequest) : Nat :=
  net.past.countP (·.input = .request q)

/-- How often a request was handed back. -/
def handedBack (net : Network ρ σ) (q : ClientRequest) : Nat :=
  (net.past.flatMap (·.effects)).count (.retry q)

theorem submissions_record (net : Network ρ σ) (o : Occurrence ρ σ) (q : ClientRequest) :
    (net.record o).submissions q = net.submissions q + o.input.requests.count q := by
  unfold submissions record
  rw [List.countP_cons]
  cases o.input <;> simp [Input.requests, List.count_singleton]

theorem handedBack_record (net : Network ρ σ) (o : Occurrence ρ σ) (q : ClientRequest) :
    (net.record o).handedBack q = net.handedBack q + o.effects.count (.retry q) := by
  unfold handedBack record
  rw [List.flatMap_cons, List.count_append, Nat.add_comm]

/-- What was sent is among the effects of its sender. -/
theorem sent_iff {net : Network ρ σ} {receiver : ReplicaId} {m : Message} :
    net.Sent receiver m ↔ ∃ p, .send receiver m ∈ net.effectsOf p ∨
      receiver ≠ p ∧ .broadcast m ∈ net.effectsOf p := by
  simp only [mem_effectsOf]
  constructor
  · rintro ⟨o, ho, hx | ⟨hne, hx⟩⟩
    · exact ⟨o.id, .inl ⟨o, ho, rfl, hx⟩⟩
    · exact ⟨o.id, .inr ⟨hne, o, ho, rfl, hx⟩⟩
  · rintro ⟨p, ⟨o, ho, rfl, hx⟩ | ⟨hne, o, ho, rfl, hx⟩⟩
    · exact ⟨o, ho, .inl hx⟩
    · exact ⟨o, ho, .inr ⟨hne, hx⟩⟩

variable [RandomSource ρ] [StateMachine σ]

/-- No more delays have passed than were asked for. -/
theorem Reachable.elapsedOf_le {spec : QuorumSpec} {net : Network ρ σ} (hr : Reachable spec net)
    (p : ReplicaId) : net.elapsedOf p ≤ net.delaysOf p := by
  refine hr.induction (P := fun net => net.elapsedOf p ≤ net.delaysOf p) (fun net hf => ?_)
    fun net o ho ih => ?_
  · simp [elapsedOf, inputsOf, hf.past]
  · have hpossible := ho.possible
    unfold elapsedOf delaysOf at ih ⊢
    rw [inputsOf_record, effectsOf_record, List.count_append, List.countP_append]
    by_cases hp : o.id = p
    · by_cases hi : o.input = .backoffElapsed
      · rw [hi, possible_backoffElapsed, hp] at hpossible
        change (net.inputsOf p).count .backoffElapsed < _ at hpossible
        simp only [hp, hi, if_true, List.count_singleton_self]
        unfold delaysOf at hpossible
        omega
      · simp only [hp, if_true, List.count_singleton, beq_iff_eq, hi, if_false]
        omega
    · simp only [hp, if_false, List.count_nil, List.countP_nil]
      exact ih

/-! ## Steps of one member -/

/-- Member `id` has taken steps on these inputs, with these effects in all. -/
structure Extends (net : Network ρ σ) (id : ReplicaId) (inputs : List Input)
    (effects : List Effect) (net' : Network ρ σ) : Prop where
  steps : Steps net net'
  others : ∀ p, p ≠ id → net'.replica p = net.replica p
  inputsOf : ∀ p, net'.inputsOf p = net.inputsOf p ++ if id = p then inputs else []
  effectsOf : ∀ p, net'.effectsOf p = net.effectsOf p ++ if id = p then effects else []
  submissions : ∀ q,
    net'.submissions q = net.submissions q + (inputs.flatMap Input.requests).count q
  handedBack : ∀ q, net'.handedBack q = net.handedBack q + (retried effects).count q

namespace Extends

variable {net net' net'' : Network ρ σ} {id : ReplicaId} {inputs more : List Input}
  {effects out : List Effect}

theorem refl (net : Network ρ σ) (id : ReplicaId) : Extends net id [] [] net where
  steps := .refl
  others _ _ := rfl
  inputsOf p := by simp
  effectsOf p := by simp
  submissions q := by simp
  handedBack q := by simp

theorem trans (h : Extends net id inputs effects net') (h' : Extends net' id more out net'') :
    Extends net id (inputs ++ more) (effects ++ out) net'' where
  steps := h.steps.trans h'.steps
  others p hne := (h'.others p hne).trans (h.others p hne)
  inputsOf p := by
    rw [h'.inputsOf, h.inputsOf]
    split <;> simp
  effectsOf p := by
    rw [h'.effectsOf, h.effectsOf]
    split <;> simp
  submissions q := by
    rw [h'.submissions, h.submissions, List.flatMap_append, List.count_append, Nat.add_assoc]
  handedBack q := by
    rw [h'.handedBack, h.handedBack, retried_append, List.count_append, Nat.add_assoc]

/-- What was sent stays sent. -/
theorem sent (h : Extends net id inputs effects net') {receiver : ReplicaId} {m : Message}
    (hs : net.Sent receiver m) : net'.Sent receiver m := by
  rw [sent_iff] at hs ⊢
  refine hs.imp fun p hp => ?_
  rw [h.effectsOf]
  exact hp.imp (List.mem_append_left _) fun ⟨hne, hx⟩ => ⟨hne, List.mem_append_left _ hx⟩

/-- Delays pass and are asked for. -/
theorem possible_self (h : Extends net id inputs effects net') :
    net'.Possible id .backoffElapsed ↔ net.elapsedOf id + inputs.count .backoffElapsed <
      net.delaysOf id + effects.countP Effect.isAlarm := by
  rw [possible_backoffElapsed, elapsedOf, delaysOf, h.inputsOf, h.effectsOf, if_pos rfl, if_pos rfl,
    List.count_append, List.countP_append]
  rfl

/-- The delays of the others are as they were. -/
theorem possible_other (h : Extends net id inputs effects net') {p : ReplicaId} (hne : p ≠ id)
    (hp : net.Possible p .backoffElapsed) : net'.Possible p .backoffElapsed := by
  rw [possible_backoffElapsed] at hp ⊢
  unfold elapsedOf delaysOf at hp ⊢
  rwa [h.inputsOf, h.effectsOf, if_neg (Ne.symm hne), if_neg (Ne.symm hne), List.append_nil,
    List.append_nil]

end Extends

/-! ## Computations -/

variable {α β : Type} {net net' : Network ρ σ} {x : Except Fault α} {P Q : Network ρ σ → α → Prop}
  {R : Network ρ σ → β → Prop}

/-- Some steps on, a member fails on a possible input. -/
def Halts (net : Network ρ σ) (f : Fault) : Prop :=
  ∃ net' id input now, Steps net net' ∧ id ∈ net'.members ∧ net'.Possible id input ∧
    (net'.replica id).step now input = .error f

/-- The network follows a computation: to its result by steps after which `Q` holds of both, and to
its fault by steps up to one that fails. -/
def Follows (net : Network ρ σ) (x : Except Fault α) (Q : Network ρ σ → α → Prop) : Prop :=
  match x with
  | .ok a => ∃ net', Steps net net' ∧ Q net' a
  | .error f => net.Halts f

/-- From a reachable network on, a step fails only at a limit. -/
theorem Halts.atLimit {spec : QuorumSpec} {f : Fault} (hr : Reachable spec net)
    (h : net.Halts f) : ∃ net' id input, Steps net net' ∧ id ∈ net'.members ∧
      net'.Possible id input ∧ (net'.replica id).AtLimit input f := by
  obtain ⟨net', id, input, now, hs, hid, hpossible, hstep⟩ := h
  have htidy := ((hr.steps hs).view (PaxosLog.sound spec)).orderly.tidy id hid
  exact ⟨net', id, input, hs, hid, hpossible, atLimit_of_step htidy hstep⟩

/-- One step. -/
theorem follows_step {id : ReplicaId} {input : Input} {now : Duration} (hid : id ∈ net.members)
    (hp : net.Possible id input) :
    net.Follows ((net.replica id).step now input) fun net' out =>
      Extends net id [input] out.2 net' ∧ net'.replica id = out.1 := by
  cases hstep : (net.replica id).step now input with
  | error f => exact ⟨net, id, input, now, .refl, hid, hp, hstep⟩
  | ok out =>
    obtain ⟨after, effects⟩ := out
    let o : Occurrence ρ σ := ⟨id, input, net.replica id, after, effects⟩
    have hone : Step net (net.record o) := .step id input now after effects hid hp hstep
    refine ⟨net.record o, .single hone, ?_, net.replica_record_self o⟩
    exact {
      steps := .single hone
      others := fun p hne => net.replica_record_ne hne
      inputsOf := fun p => net.inputsOf_record o p
      effectsOf := fun p => net.effectsOf_record o p
      submissions := fun q => by rw [submissions_record, List.flatMap_singleton]
      handedBack := fun q => by rw [handedBack_record, count_retried] }

namespace Follows

/-- Nothing is left to be done. -/
theorem ok {a : α} (h : Q net a) : net.Follows (.ok a) Q := ⟨net, .refl, h⟩

/-- The network has come some steps on. -/
theorem after (hs : Steps net net') (h : net'.Follows x Q) : net.Follows x Q := by
  cases x with
  | error f =>
    obtain ⟨last, id, input, now, hs', hfails⟩ := h
    exact ⟨last, id, input, now, hs.trans hs', hfails⟩
  | ok a =>
    obtain ⟨last, hs', hq⟩ := h
    exact ⟨last, hs.trans hs', hq⟩

theorem mono (h : net.Follows x P) (hpq : ∀ net' a, P net' a → Q net' a) : net.Follows x Q := by
  cases x with
  | error f => exact h
  | ok a =>
    obtain ⟨net', hs, hp⟩ := h
    exact ⟨net', hs, hpq net' a hp⟩

/-- One computation after another. -/
theorem bind {g : α → Except Fault β} (h : net.Follows x P)
    (hg : ∀ net' a, P net' a → net'.Follows (g a) R) : net.Follows (x >>= g) R := by
  cases x with
  | error f => exact h
  | ok a =>
    obtain ⟨net', hs, hp⟩ := h
    exact (hg net' a hp).after hs

theorem map {g : α → β} (h : net.Follows x P) (hg : ∀ net' a, P net' a → R net' (g a)) :
    net.Follows (x.map g) R := by
  cases x with
  | error f => exact h
  | ok a =>
    obtain ⟨net', hs, hp⟩ := h
    exact ⟨net', hs, hg net' a hp⟩

end Follows

end Network

end PaxosLog
