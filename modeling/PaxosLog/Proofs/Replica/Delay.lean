import PaxosLog.Proofs.Network
import PaxosLog.Proofs.Replica.Run

/-!
# Delays of a replica

A delay is outstanding from the step that asks for it until it has passed.

* **`alarms_of_step`**, `fired_of_step`: a step makes a delay outstanding exactly if it asks for
  one, and the end of a delay leaves none outstanding.
* **`Replica.Run.alarmed`**: an outstanding delay was asked for, and none has ended since.
-/

namespace PaxosLog

variable {ρ σ : Type}

/-- From `t` to `t'` the flag and the requests for a delay go together, unless the input is the end
of a delay, which asks for no other one. -/
structure Alarms (input : Input) (t t' : Turn ρ σ) : Prop where
  armed : input ≠ .backoffElapsed →
    t'.backoff.inFlight.toNat + t.effects.countP Effect.isAlarm =
      t.backoff.inFlight.toNat + t'.effects.countP Effect.isAlarm
  silent : input = .backoffElapsed →
    t'.effects.countP Effect.isAlarm = t.effects.countP Effect.isAlarm

namespace Alarms

variable {input : Input} {t t₁ t' : Turn ρ σ}

theorem trans (h : Alarms input t t₁) (h' : Alarms input t₁ t') : Alarms input t t' where
  armed hi := by
    have := h.armed hi
    have := h'.armed hi
    omega
  silent hi := (h'.silent hi).trans (h.silent hi)

theorem of_quiet {xs : List Effect} (hflag : t'.backoff.inFlight = t.backoff.inFlight)
    (heffects : t'.effects = t.effects ++ xs) (hxs : ∀ x ∈ xs, x.isAlarm = false) :
    Alarms input t t' := by
  have hnone : xs.countP Effect.isAlarm = 0 :=
    List.countP_eq_zero.mpr fun x hx => by simp [hxs x hx]
  have hcount : t'.effects.countP Effect.isAlarm = t.effects.countP Effect.isAlarm := by
    rw [heffects, List.countP_append, hnone]
    rfl
  exact ⟨fun _ => by rw [hflag, hcount], fun _ => hcount⟩

/-- Neither changes. -/
theorem of_same (hflag : t'.backoff = t.backoff) (heffects : t'.effects = t.effects) :
    Alarms input t t' :=
  of_quiet (by rw [hflag]) (heffects.trans (List.append_nil _).symm) (by simp)

end Alarms

variable [RandomSource ρ] [StateMachine σ]

/-- **Every move keeps flag and requests together.** -/
theorem Move.alarms {before : Replica ρ σ} {input : Input} {t t' : Turn ρ σ}
    (h : Move before input t t') : Alarms input t t' := by
  have hretry : ∀ requests : List ClientRequest, ∀ x ∈ requests.map Effect.retry,
      x.isAlarm = false := by
    intro requests x hx
    obtain ⟨q, -, rfl⟩ := List.mem_map.mp hx
    rfl
  cases h with
  | enqueue request hi ha => exact .of_same rfl rfl
  | lead ha ho hq => exact .of_same rfl rfl
  | dequeue ha => exact .of_same rfl rfl
  | follow m hi hm hlt => exact .of_same rfl rfl
  | countVote m e hi hstart hs hc hb hm ho => exact .of_same rfl rfl
  | execute t' e hs hc h =>
    obtain ⟨_, _, effects, -, rfl, hout⟩ := Turn.executeEntry_cases h
    refine .of_quiet rfl rfl ?_
    rcases hout with ⟨-, -, rfl⟩ | ⟨c, -, -, rfl⟩
    · exact hretry _
    · simp [Effect.isAlarm]
  | backOff t' h hwhy =>
    obtain ⟨m, rfl, -⟩ := hwhy
    refine ⟨fun _ => ?_, fun hi => by cases hi⟩
    rcases Turn.scheduleBackoff_cases h with ⟨-, rfl⟩ | ⟨hflight, delay, source, rfl⟩
    · rfl
    · have hdraws : (t.backoff.policy.draws.map Effect.draw).countP Effect.isAlarm = 0 := by
        rw [List.countP_eq_zero]
        simp [Effect.isAlarm]
      simp only [hflight, List.countP_append, hdraws, List.countP_singleton, Effect.isAlarm,
        Bool.toNat_true, Bool.toNat_false, if_true]
      omega
  | fired hi => exact ⟨fun hne => absurd hi hne, fun _ => rfl⟩
  | vote m proposer log displaced hi ho hb h =>
    refine .of_quiet rfl (List.append_assoc ..) (List.forall_mem_append.mpr ⟨hretry _, ?_⟩)
    simp [Effect.isAlarm]
  | report | countPromise | learn => exact .of_quiet rfl rfl (hretry _)
  | elect | offer | offerAgain | choose | answer | refuse =>
    exact .of_quiet rfl rfl (by simp [Effect.isAlarm])

variable {r r' : Replica ρ σ} {now : Duration} {out : List Effect}

/-- After the end of a delay none is outstanding. -/
theorem fired_of_step (hs : r.step now .backoffElapsed = .ok (r', out)) :
    r'.backoff.inFlight = false := by
  obtain ⟨t, ht, heq⟩ := map_eq_ok.mp hs
  obtain ⟨t₁, -, rfl⟩ := map_eq_ok.mp ht
  obtain ⟨hr, -⟩ := Prod.mk.inj heq
  rw [← hr]
  rfl

/-- **A step begins an outstanding delay** exactly with a request for it. The end of a delay asks
for none. -/
theorem alarms_of_step {input : Input} (ht : Tidy r) (hs : r.step now input = .ok (r', out)) :
    (input ≠ .backoffElapsed →
      r'.backoff.inFlight.toNat = r.backoff.inFlight.toNat + out.countP Effect.isAlarm) ∧
    (input = .backoffElapsed → out.countP Effect.isAlarm = 0) := by
  obtain ⟨t, hmoves, rfl, rfl⟩ := moves_of_step (fun ha => (ht.lead ha).1) hs
  clear hs
  suffices hall : Alarms input { r with now, effects := [] } t from
    ⟨fun hi => hall.armed hi, hall.silent⟩
  induction hmoves with
  | refl => exact .of_same rfl rfl
  | tail _ hmove ih => exact ih.trans hmove.alarms

/-- An outstanding delay was outstanding before the step or is asked for in it. -/
theorem delays_of_step {input : Input} (ht : Tidy r) (hs : r.step now input = .ok (r', out)) :
    r'.backoff.inFlight.toNat ≤ r.backoff.inFlight.toNat + out.countP Effect.isAlarm := by
  by_cases hi : input = .backoffElapsed
  · subst hi
    rw [fired_of_step hs]
    exact Nat.zero_le _
  · exact Nat.le_of_eq ((alarms_of_step ht hs).1 hi)

/-- **An outstanding delay** was asked for, and none has ended since. -/
theorem Replica.Run.alarmed {fresh : Replica ρ σ} {inputs : List Input} {effects : List Effect}
    (h : fresh.Run inputs r effects) (hf : Tidy fresh) (hidle : fresh.backoff.inFlight = false)
    (hflight : r.backoff.inFlight = true) :
    ∃ earlier later r₁ before after, inputs = earlier ++ later ∧ effects = before ++ after ∧
      fresh.Run earlier r₁ before ∧ r₁.Run later r after ∧ .backoffElapsed ∉ later ∧
      ∃ x ∈ after, x.isAlarm = true := by
  induction h with
  | start => rw [hidle] at hflight; cases hflight
  | @step inputs r r' effects out h now input hs ih =>
    have hother : input ≠ .backoffElapsed := by
      rintro rfl
      rw [fired_of_step hs] at hflight
      cases hflight
    have hdelays := delays_of_step (h.tidy hf) hs
    cases hbefore : r.backoff.inFlight with
    | false =>
      simp only [hflight, hbefore, Bool.toNat_true, Bool.toNat_false] at hdelays
      have hasked := List.countP_pos_iff.mp (show 0 < out.countP Effect.isAlarm by omega)
      exact ⟨inputs, [input], r, effects, out, rfl, rfl, h, .step .start now input hs,
        by simpa using hother.symm, hasked⟩
    | true =>
      obtain ⟨earlier, later, r₁, before, after, rfl, rfl, h₁, h₂, hnone, x, hx, halarm⟩ :=
        ih hbefore
      refine ⟨earlier, later ++ [input], r₁, before, after ++ out, by simp, by simp, h₁,
        h₂.step now input hs, ?_, x, List.mem_append_left _ hx, halarm⟩
      simpa using ⟨hnone, hother.symm⟩

end PaxosLog
