import PaxosLog.Proofs.Replica.Reach
import PaxosLog.Proofs.Replica.Rest

/-!
# Runs of one replica

`Replica.Run` is a replica that is given inputs one after another, whatever they are: requests,
elections, ends of delays, and messages that need not be consistent with anything. It holds the
state after the inputs and all effects so far.

* **`Run.tidy`**, **`Run.rested`**: what holds between two inputs.
* **`Run.carried`**, `Run.moved`: the induction over all moves of a run. What every move keeps,
  given the inputs and the effects of all steps so far, holds of the run.
* **`Run.continues`**: a run can go on with every input, up to the limits of counters and delays.

`Replica.feed` carries out a list of inputs. Closed statements about single runs are checked
through it (`Run.exists_of_feed`).
-/

namespace PaxosLog

variable {ρ σ : Type} [RandomSource ρ] [StateMachine σ]

/-- What inputs make of a replica: the state after them, and everything that left the replica. -/
inductive Replica.Run (fresh : Replica ρ σ) : List Input → Replica ρ σ → List Effect → Prop
  | start : Run fresh [] fresh []
  | step {inputs : List Input} {r r' : Replica ρ σ} {effects out : List Effect}
      (h : Run fresh inputs r effects) (now : Duration) (input : Input)
      (hs : r.step now input = .ok (r', out)) : Run fresh (inputs ++ [input]) r' (effects ++ out)

namespace Replica.Run

variable {fresh r : Replica ρ σ} {inputs : List Input} {effects : List Effect}

theorem tidy (h : fresh.Run inputs r effects) (hf : Tidy fresh) : Tidy r := by
  induction h with
  | start => exact hf
  | step h now input hs ih =>
    obtain ⟨t, hmoves, rfl, -⟩ := moves_of_step (fun ha => (ih.lead ha).1) hs
    exact Tidy.moves hmoves ih

theorem rested (h : fresh.Run inputs r effects) (hf : Tidy fresh) (hr : Rested fresh) :
    Rested r := by
  induction h with
  | start => exact hr
  | step h now input hs ih => exact rested_of_step (h.tidy hf) ih hs

/-- **Induction over the moves of a run.** `P` speaks of the requests submitted so far, those in
hand, the effects so far and the replica. -/
theorem carried {P : List ClientRequest → List ClientRequest → List Effect → Replica ρ σ → Prop}
    (hf : Tidy fresh) (start : P [] [] [] fresh)
    (bring : ∀ submitted effects r (input : Input), P submitted [] effects r →
      P (submitted ++ input.requests) input.requests effects r)
    (carry : ∀ submitted prior before input (t t' : Turn ρ σ) hand hand', Tidy t.toReplica →
      Carry before input (t, hand) (t', hand') → P submitted hand (prior ++ t.effects) t.toReplica →
      P submitted hand' (prior ++ t'.effects) t'.toReplica)
    (h : fresh.Run inputs r effects) : P (inputs.flatMap Input.requests) [] effects r := by
  induction h with
  | start => exact start
  | @step inputs r r' effects out h now input hs ih =>
    have ht := h.tidy hf
    obtain ⟨t, hcarries, rfl, rfl⟩ := carries_of_step (fun ha => (ht.lead ha).1) hs
    rw [List.flatMap_append, List.flatMap_singleton]
    suffices hall : ∀ c : Turn ρ σ × List ClientRequest,
        Carries r input ({ r with now, effects := [] }, input.requests) c →
          Tidy c.1.toReplica ∧ P (inputs.flatMap Input.requests ++ input.requests) c.2
            (effects ++ c.1.effects) c.1.toReplica from (hall _ hcarries).2
    intro c hc
    induction hc with
    | refl => exact ⟨ht, by simpa using bring _ _ _ input ih⟩
    | tail _ hcarry ihc => exact ⟨ihc.1.move hcarry.move, carry _ _ _ _ _ _ _ _ ihc.1 hcarry ihc.2⟩

/-- The same of inputs instead of requests. -/
theorem moved {P : List Input → List Effect → Replica ρ σ → Prop} (hf : Tidy fresh)
    (start : P [] [] fresh)
    (bring : ∀ inputs effects r input, P inputs effects r → P (inputs ++ [input]) effects r)
    (move : ∀ inputs prior before input (t t' : Turn ρ σ), Tidy t.toReplica → input ∈ inputs →
      Move before input t t' → P inputs (prior ++ t.effects) t.toReplica →
      P inputs (prior ++ t'.effects) t'.toReplica)
    (h : fresh.Run inputs r effects) : P inputs effects r := by
  induction h with
  | start => exact start
  | @step inputs r r' effects out h now input hs ih =>
    have ht := h.tidy hf
    obtain ⟨t, hmoves, rfl, rfl⟩ := moves_of_step (fun ha => (ht.lead ha).1) hs
    clear hs
    suffices hall : Tidy t.toReplica ∧ P (inputs ++ [input]) (effects ++ t.effects) t.toReplica from
      hall.2
    induction hmoves with
    | refl => exact ⟨ht, by simpa using bring _ _ _ input ih⟩
    | tail _ hmove ihm =>
      exact ⟨ihm.1.move hmove, move _ _ _ _ _ _ ihm.1 (by simp) hmove ihm.2⟩

/-- The highest slot holds an entry. -/
theorem topped {id : ReplicaId} {n : Nat} {config : Config} {source : ρ} {machine : σ}
    (h : fresh.Run inputs r effects)
    (hstart : Replica.start id n config source machine = .ok fresh) : r.log.Topped := by
  refine h.moved (P := fun _ _ r => r.log.Topped) (Tidy.start hstart) ?_
    (fun _ _ _ _ htop => htop) fun _ _ _ _ _ _ _ _ hmove htop => Tidy.topped_move hmove htop
  obtain ⟨quorums, rfl⟩ := Replica.start_eq_ok hstart
  exact Log.topped_empty

/-- A replica keeps its identity. -/
theorem id_eq (h : fresh.Run inputs r effects) (hf : Tidy fresh) : r.id = fresh.id :=
  h.moved (P := fun _ _ r => r.id = fresh.id) hf rfl (fun _ _ _ _ hid => hid)
    fun _ _ _ _ _ _ _ _ hmove hid => hmove.id_eq.trans hid

/-- A replica keeps its thresholds. -/
theorem quorums_eq (h : fresh.Run inputs r effects) (hf : Tidy fresh) : r.quorums = fresh.quorums :=
  h.moved (P := fun _ _ r => r.quorums = fresh.quorums) hf rfl (fun _ _ _ _ hq => hq)
    fun _ _ _ _ _ _ _ _ hmove hq => hmove.quorums_eq.trans hq

/-- A run of a replica that a run led to. -/
theorem append {r' : Replica ρ σ} {more : List Input} {out : List Effect}
    (h : fresh.Run inputs r effects) (h' : r.Run more r' out) :
    fresh.Run (inputs ++ more) r' (effects ++ out) := by
  induction h' with
  | start => simpa using h
  | step _ now input hs ih =>
    rw [← List.append_assoc, ← List.append_assoc]
    exact ih.step now input hs

/-- **A run can go on** with every input, unless a counter is at its limit or no delay can be
made. -/
theorem continues (h : fresh.Run inputs r effects) (hf : Tidy fresh) (now : Duration)
    (input : Input) :
    (∃ r' out, r.step now input = .ok (r', out) ∧
      fresh.Run (inputs ++ [input]) r' (effects ++ out)) ∨
    ∃ f, r.step now input = .error f ∧ r.AtLimit input f := by
  cases hs : r.step now input with
  | ok p => exact .inl ⟨p.1, p.2, rfl, h.step now input hs⟩
  | error f => exact .inr ⟨f, rfl, atLimit_of_step (h.tidy hf) hs⟩

/-- The cursor only moves on. -/
theorem cursor_le {r' : Replica ρ σ} {out : List Effect} {now : Duration} {input : Input}
    (h : fresh.Run inputs r effects) (hf : Tidy fresh) (hs : r.step now input = .ok (r', out)) :
    r.log.executeCursor ≤ r'.log.executeCursor := by
  obtain ⟨t, hmoves, rfl, -⟩ := moves_of_step (fun ha => ((h.tidy hf).lead ha).1) hs
  clear hs
  induction hmoves with
  | refl => exact Std.le_refl _
  | tail _ hmove ih => exact Std.le_trans ih hmove.cursor_le

end Replica.Run

/-! ## Feeding a replica -/

namespace Replica

/-- Gives inputs to a replica one after another, at time zero. -/
def feed : List Input → Replica ρ σ × List Effect → Option (Replica ρ σ × List Effect)
  | [], p => some p
  | input :: inputs, (r, effects) =>
    match r.step .zero input with
    | .error _ => none
    | .ok (r', out) => feed inputs (r', effects ++ out)

theorem run_of_feed {fresh : Replica ρ σ} {inputs : List Input}
    {p p' : Replica ρ σ × List Effect} {done : List Input} (hp : fresh.Run done p.1 p.2)
    (h : feed inputs p = some p') : fresh.Run (done ++ inputs) p'.1 p'.2 := by
  induction inputs generalizing p done with
  | nil => cases h; rwa [List.append_nil]
  | cons input inputs ih =>
    unfold feed at h
    split at h
    · cases h
    · rename_i r' out hs
      have hrun := ih (hp.step .zero input hs) h
      rwa [List.append_assoc] at hrun

/-- A run that ends as the check says. -/
theorem Run.exists_of_feed (fresh : Replica ρ σ) (inputs : List Input)
    (check : Replica ρ σ × List Effect → Prop) [DecidablePred check]
    (h : (feed inputs (fresh, [])).any (fun p => check p) = true) :
    ∃ r effects, fresh.Run inputs r effects ∧ check (r, effects) := by
  obtain ⟨p, hp, hc⟩ := (Option.any_eq_true _ _).mp h
  exact ⟨p.1, p.2, run_of_feed (p := (fresh, [])) .start hp, of_decide_eq_true hc⟩

/-- A run that goes on after some inputs, and ends as the check says. -/
theorem Run.exists_of_feeds (fresh : Replica ρ σ) (inputs more : List Input)
    (check : Replica ρ σ × List Effect → Replica ρ σ × List Effect → Prop)
    [∀ p, DecidablePred (check p)]
    (h : (feed inputs (fresh, [])).any
      (fun p => (feed more (p.1, [])).any fun p' => check p p') = true) :
    ∃ r effects r' out, fresh.Run inputs r effects ∧ r.Run more r' out ∧
      check (r, effects) (r', out) := by
  obtain ⟨p, hp, hmore⟩ := (Option.any_eq_true _ _).mp h
  obtain ⟨r', out, hrun, hc⟩ := exists_of_feed p.1 more (check p) hmore
  exact ⟨p.1, p.2, r', out, run_of_feed (p := (fresh, [])) .start hp, hrun, hc⟩

end Replica

end PaxosLog
