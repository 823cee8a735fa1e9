import PaxosLog.Proofs.Replica.Authentic

/-!
# Redelivery is harmless

A network may deliver a message twice, and the second time may come late: after other elections,
take-overs and choices. What the first delivery left in the replica is still there, and is all that
the message could bring (`Replica.Absorbed`). The one thing that must not happen is that a message
completes a quorum of promises or votes once more; a replica that has a quorum has acted on it by
the end of the step (`Dutiful`).

**`redelivery_harmless`**: for every message that a replica took, in every later state.
-/

namespace PaxosLog

variable {ρ σ : Type} [RandomSource ρ] [StateMachine σ] {fresh r r₁ r' : Replica ρ σ}
  {inputs more : List Input} {effects out later : List Effect}

/-- **Redelivery is harmless.** The inputs may be any, as long as no message carries a ballot of the
replica's own that it has not opened, or cites a proposal under one that it has not asked votes for.
A message that the replica took (a request, an announcement, a promise that it did not ignore, an
acknowledgement that it counted) leaves it as it is when it is delivered again, in any later state:
nothing in the replica changes, and the only effect is an answer, if any, to the owner of the
message's ballot. No other input makes the replica fail, unless a counter is at its limit or no
delay can be made. -/
theorem redelivery_harmless {id : ReplicaId} {n : Nat} {config : Config} {source : ρ} {machine : σ}
    (hstart : Replica.start id n config source machine = .ok fresh)
    (hrun : fresh.AuthenticRun [] inputs r effects) {m : Message} (hm : m.Authentic id effects)
    (htakes : r.Takes m) {now : Duration} (hs : r.step now (.message m) = .ok (r₁, out))
    (hmore : r₁.AuthenticRun (effects ++ out) more r' later) :
    (∀ now', ∃ echo, r'.step now' (.message m) = .ok (r', echo) ∧ m.Echoes echo) ∧
    ∀ now' input f, r'.step now' input = .error f →
      r'.AtLimit input f := by
  have hf := Tidy.start hstart
  have ht := hrun.run.tidy hf
  have hid : r.id = id := by
    rw [hrun.run.id_eq hf]
    obtain ⟨quorums, rfl⟩ := Replica.start_eq_ok hstart
    rfl
  have hfresh : fresh.id = id := (hrun.run.id_eq hf).symm.trans hid
  have hauthored := hrun.authored hf (.start hstart)
  have hstep : fresh.AuthenticRun [] (inputs ++ [.message m]) r₁ (effects ++ out) :=
    hrun.step now (.message m) (hfresh ▸ hm) hs
  -- the first delivery
  have habsorbed : r₁.Absorbed m := by
    refine absorbed_of_step htakes (fun p _ hlt => hauthored.foreign (hid ▸ hm) hlt)
      (fun a ha => ?_) hs
    subst ha
    obtain ⟨hb, hown, e, he, heb⟩ := htakes
    exact hauthored.active he (heb.trans hb) hown
  -- what happens in between
  have ht₁ := hstep.run.tidy hf
  have hr₁ := hstep.run.rested hf (.start hstart)
  have hd₁ := hstep.dutiful hf (.start hstart) (.start hstart) (.start hstart)
  have hkept : r'.Absorbed m := by
    have hlater := hmore.run
    clear hmore
    induction hlater with
    | start => exact habsorbed
    | step h now input hs ih => exact ih.step (h.tidy ht₁) hs
  have ht' := hmore.run.tidy ht₁
  have hd' := hmore.dutiful ht₁ hr₁ hd₁ (hstep.authored hf (.start hstart))
  -- the second delivery
  exact ⟨fun now' => step_of_absorbed ht' (hmore.run.rested ht₁ hr₁).idle hd' hkept now',
    fun now' input f hf' => atLimit_of_step ht' hf'⟩

/-- Replica 1 counts a promise, which elects it, proposes its request and counts a vote, which
chooses the request; then it follows replica 3. The promise that elected it arrives once more. -/
theorem redelivery_harmless_elected : ∃ r' : Replica Script Journal, r'.ballot = ⟨2, some 3⟩ ∧
    r'.log.executeCursor = 2 ∧
    ∃ echo, r'.step .zero (.message (.promise ⟨⟨1, some 1⟩, 2, ∅⟩)) = .ok (r', echo) := by
  obtain ⟨r, effects, hrun, ⟨hauth, ha, hb⟩, hrest⟩ := Replica.AuthenticRun.exists_of_feed
    (Network.trio.replica 1) [] [.request ⟨0, [65]⟩]
    (fun p => ((Message.promise ⟨⟨1, some 1⟩, 2, ∅⟩).Authentic 1 p.2 ∧ p.1.active = false ∧
        p.1.ballot = ⟨1, some 1⟩) ∧
      (p.1.step .zero (.message (.promise ⟨⟨1, some 1⟩, 2, ∅⟩))).toOption.any (fun q =>
        (Replica.feedAuthentic q.1.id (p.2 ++ q.2) [.message (.accepted ⟨⟨1, some 1⟩, 1, 2⟩),
          .message (.prepare ⟨⟨2, some 3⟩, 1⟩)] (q.1, [])).any fun q' =>
            decide (q'.1.ballot = ⟨2, some 3⟩ ∧ q'.1.log.executeCursor = 2)) = true)
    (by decide +kernel)
  have hstart : Replica.start 1 3 .standard (⟨[]⟩ : Script) Journal.empty =
      .ok (Network.trio.replica 1) := rfl
  have htakes : r.Takes (.promise ⟨⟨1, some 1⟩, 2, ∅⟩) := by
    rintro (hact | hlt)
    · exact absurd (ha.symm.trans hact) (by simp)
    · rw [hb] at hlt
      exact absurd hlt (by decide)
  obtain ⟨⟨r₁, out⟩, hq, hfeed⟩ := (Option.any_eq_true _ _).mp hrest
  have hs : r.step .zero (.message (.promise ⟨⟨1, some 1⟩, 2, ∅⟩)) = .ok (r₁, out) := by
    cases h : r.step .zero (.message (.promise ⟨⟨1, some 1⟩, 2, ∅⟩)) with
    | error f => rw [h] at hq; cases hq
    | ok q => rw [h] at hq; cases hq; rfl
  obtain ⟨r', later, hmore, hb', hcursor⟩ := Replica.AuthenticRun.exists_of_feed r₁
    (effects ++ out) _ _ hfeed
  obtain ⟨echo, hecho, -⟩ := (redelivery_harmless hstart hrun hauth htakes hs hmore).1 .zero
  exact ⟨r', hb', hcursor, echo, hecho⟩

end PaxosLog
