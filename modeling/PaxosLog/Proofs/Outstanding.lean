import PaxosLog.Proofs.Replica.Delay
import PaxosLog.Proofs.Replica.Duty

/-!
# A replica does not sleep on work

A request that is not agreed on waits in the queue of a replica or in a vote of its log. Whoever
holds one leads, tries to, or has asked for another election; so the request waits for something
that is still to come.

* `Replica.Run.ballot_cases`: a replica holds the ballot it began with, one that it opened, or one
  that a message carried.

**`outstanding_work_pursued`**: after any inputs, whatever the peers say.
-/

namespace PaxosLog

variable {ρ σ : Type} [RandomSource ρ] [StateMachine σ]
  {fresh r : Replica ρ σ} {inputs : List Input} {effects : List Effect}

/-- **Where the ballot of a replica comes from.** -/
theorem Replica.Run.ballot_cases (h : fresh.Run inputs r effects) (hf : Tidy fresh) :
    r.ballot = fresh.ballot ∨ (∃ k, .broadcast (.prepare ⟨r.ballot, k⟩) ∈ effects) ∨
      ∃ m, .message m ∈ inputs ∧ m.ballot = r.ballot := by
  refine h.moved (P := fun inputs effects r => r.ballot = fresh.ballot ∨
    (∃ k, .broadcast (.prepare ⟨r.ballot, k⟩) ∈ effects) ∨
      ∃ m, .message m ∈ inputs ∧ m.ballot = r.ballot) hf (.inl rfl) ?_ ?_
  · rintro inputs effects r input (hb | hopened | ⟨m, hm, hb⟩)
    · exact .inl hb
    · exact .inr (.inl hopened)
    · exact .inr (.inr ⟨m, List.mem_append_left _ hm, hb⟩)
  · intro inputs prior before input t t' _ hi hmove hold
    have hkept : t'.ballot = t.ballot → t'.ballot = fresh.ballot ∨
        (∃ k, .broadcast (.prepare ⟨t'.ballot, k⟩) ∈ prior ++ t'.effects) ∨
          ∃ m, .message m ∈ inputs ∧ m.ballot = t'.ballot := by
      intro hb
      rw [hb]
      refine hold.imp_right (Or.imp_left fun ⟨k, hx⟩ => ⟨k, ?_⟩)
      rcases List.mem_append.mp hx with hx | hx
      · exact List.mem_append_left _ hx
      · exact List.mem_append_right _ (hmove.effects_sub hx)
    rcases hmove.promises_cases with ⟨-, hb | ⟨m, rfl, -, hb, -⟩⟩ | ⟨-, -, -, -, -, hx⟩ |
      ⟨m, -, -, -, hb, -⟩
    · exact hkept hb
    · exact .inr (.inr ⟨m, hi, hb.symm⟩)
    · exact .inr (.inl ⟨_, List.mem_append_right _ hx⟩)
    · exact hkept hb

/-- **A replica never sleeps on work.** Whatever it was given, a replica that leads owns its ballot
and has an empty queue. If its queue holds a request, or some vote of its log owns one, it owns its
ballot or waits for the end of a delay. It owns a ballot only if it asked for promises for it or a
peer named it, and a delay that it waits for was asked for, and none has ended since. No further
input makes the replica fail, unless a counter is at its limit or no delay can be made. -/
theorem outstanding_work_pursued {id : ReplicaId} {n : Nat} {config : Config} {source : ρ}
    {machine : σ} (hstart : Replica.start id n config source machine = .ok fresh)
    (hrun : fresh.Run inputs r effects) :
    (r.active = true → r.ballot.owner = some id ∧ r.pending = []) ∧
    ((r.pending ≠ [] ∨ ∃ s e, r.log.get? s = some e ∧ e.isCommitted = false ∧ e.request ≠ none) →
      r.ballot.owner = some id ∨ r.backoff.inFlight = true) ∧
    (r.ballot.owner = some id → (∃ k, .broadcast (.prepare ⟨r.ballot, k⟩) ∈ effects) ∨
      ∃ m, .message m ∈ inputs ∧ m.ballot = r.ballot) ∧
    (r.backoff.inFlight = true → ∃ earlier later r₁ before after,
      inputs = earlier ++ later ∧ effects = before ++ after ∧ fresh.Run earlier r₁ before ∧
        r₁.Run later r after ∧ .backoffElapsed ∉ later ∧ ∃ x ∈ after, x.isAlarm = true) ∧
    ∀ now input f, r.step now input = .error f →
      r.AtLimit input f := by
  have hf := Tidy.start hstart
  have htidy := hrun.tidy hf
  have hrested := hrun.rested hf (.start hstart)
  have hid := hrun.id_eq hf
  obtain ⟨quorums, rfl⟩ := Replica.start_eq_ok hstart
  change r.id = id at hid
  refine ⟨fun ha => ⟨hid ▸ (htidy.lead ha).1, hrested.drained ha⟩, fun hwork => ?_,
    fun howner => ?_, hrun.alarmed hf rfl, fun now input f hs => atLimit_of_step htidy hs⟩
  · rw [← hid]
    refine hrested.armed (hasOutstandingWork_iff.mpr (hwork.imp_right ?_))
    rintro ⟨s, e, he, hc, hr⟩
    exact htidy.hasOwnedUncommitted_iff.mpr ⟨s, e, ⟨he, hc⟩, hr⟩
  · rcases hrun.ballot_cases hf with hb | horigin
    · rw [hb] at howner
      cases howner
    · exact horigin

/-- Replica 1 is elected by replica 2, proposes a request and follows a higher ballot before the
request is chosen: it waits for the end of a delay. -/
theorem outstanding_work_pursued_preempted : ∃ r : Replica Script Journal,
    r.ballot.owner = some 2 ∧
    (∃ s e, r.log.get? s = some e ∧ e.isCommitted = false ∧ e.request ≠ none) ∧
    (r.ballot.owner = some 1 ∨ r.backoff.inFlight = true) := by
  obtain ⟨r, effects, hrun, hfollows, howned⟩ := Replica.Run.exists_of_feed
    (Network.trio.replica 1)
    [.request ⟨0, [65]⟩, .message (.promise ⟨⟨1, some 1⟩, 2, ∅⟩),
      .message (.prepare ⟨⟨2, some 2⟩, 1⟩)]
    (fun p => p.1.ballot.owner = some 2 ∧ (p.1.log.get? 1).any
      (fun e => !e.isCommitted && e.request.isSome) = true)
    (by decide +kernel)
  have hstart : Replica.start 1 3 .standard (⟨[]⟩ : Script) Journal.empty =
      .ok (Network.trio.replica 1) := rfl
  obtain ⟨e, he, hwaits⟩ := (Option.any_eq_true _ _).mp howned
  rw [Bool.and_eq_true, Bool.not_eq_true', Option.isSome_iff_ne_none] at hwaits
  have hwork : ∃ s e, r.log.get? s = some e ∧ e.isCommitted = false ∧ e.request ≠ none :=
    ⟨1, e, he, hwaits⟩
  exact ⟨r, hfollows, hwork, (outstanding_work_pursued hstart hrun).2.1 (.inr hwork)⟩

end PaxosLog
