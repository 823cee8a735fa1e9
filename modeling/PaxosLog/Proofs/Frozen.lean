import PaxosLog.Proofs.Execution

/-!
# Chosen values are frozen

Six operations write entries of a log: a proposal, a vote, the report of a promise, an announcement,
a proposal that a new leader makes again, and the choice after enough votes. None of them touches an
entry that is chosen. The sentinel is chosen from the start, so it is never proposed or announced;
and a promise leaves it out, and execution begins after it.

* `Replica.Run.frozen`: chosen entries keep status, ballot and command, since every move keeps them
  (`Move.frozen`).
* `Move.spares`, `Replica.Run.spares`: no effect is about the sentinel (`Effect.SparesSentinel`).

**`chosen_frozen`**: both, after any inputs, whatever the peers say.
-/

namespace PaxosLog

/-- The message neither reports the sentinel nor proposes or announces a command for it. -/
def Message.SparesSentinel : Message → Prop
  | .promise m => m.log[Slot.sentinel]? = none
  | .accept m => m.slot ≠ Slot.sentinel
  | .commit m => m.slot ≠ Slot.sentinel
  | _ => True

/-- The effect neither sends such a message nor executes or answers anything at the sentinel. -/
def Effect.SparesSentinel : Effect → Prop
  | .broadcast m => m.SparesSentinel
  | .send _ m => m.SparesSentinel
  | .execute slot _ _ => slot ≠ Slot.sentinel
  | .reply _ r => r.slot ≠ Slot.sentinel
  | _ => True

/-- A promise leaves the sentinel out, wherever it starts. -/
theorem Log.getElem?_promised_sentinel (log : Log) (start : Slot) :
    (log.promised start)[Slot.sentinel]? = none := by
  rw [getElem?_promised, if_neg]
  rintro ⟨hle, -⟩
  change (if start ≤ Slot.first then Slot.first else start) ≤ Slot.sentinel at hle
  split at hle
  · exact absurd hle (by decide)
  · rename_i hstart
    exact hstart (Std.le_trans hle (by decide))

variable {ρ σ : Type} [RandomSource ρ] [StateMachine σ]
  {before : Replica ρ σ} {input : Input} {t t' : Turn ρ σ}

omit [RandomSource ρ] [StateMachine σ] in
/-- A new message is not about the sentinel, which is chosen. -/
theorem Emits.spares {x : Effect} (h : Emits before input t t' x) (ht : Tidy t.toReplica) :
    x.SparesSentinel := by
  have hother : ∀ {s e}, t.log.get? s = some e → e.isCommitted = false → s ≠ Slot.sentinel := by
    rintro s e he hc rfl
    exact absurd (ht.first_le_of_vote he hc) (by decide)
  cases h with
  | prepare hlog hsame hlt ho => trivial
  | ask s e ha hb hs hs' hc heb hnew =>
    rintro rfl
    obtain ⟨e₀, he₀, -⟩ := ht.sentinel
    exact hother he₀ (hs e₀ he₀).1 rfl
  | choose s e ho hs hc hb hq => exact hother hs hc
  | answer m candidate hi ho hle hsame => exact Log.getElem?_promised_sentinel t.log m.start
  | vote m proposer hi ho hb hb' hj => trivial
  | refuse m proposer hi ho hbefore hlt hsame => trivial

omit [RandomSource ρ] in
/-- Execution is past the sentinel. -/
theorem Turn.spares_executeEntry {e : LogEntry} (ht : Tidy t.toReplica)
    (h : t.executeEntry e = .ok t') : ∀ x ∈ t'.effects, x ∈ t.effects ∨ x.SparesSentinel := by
  have hne : t.log.executeCursor ≠ Slot.sentinel := by
    intro h0
    have hfirst := ht.first_le
    rw [h0] at hfirst
    exact absurd hfirst (by decide)
  obtain ⟨cursor, machine, out, -, rfl, hcase⟩ := executeEntry_cases h
  intro x hx
  refine (List.mem_append.mp hx).imp_right fun hx => ?_
  rcases hcase with ⟨-, -, rfl⟩ | ⟨c, -, -, rfl⟩
  · obtain ⟨q, -, rfl⟩ := List.mem_map.mp hx
    trivial
  · rcases List.mem_cons.mp hx with rfl | hx
    · exact hne
    · obtain ⟨q, -, rfl⟩ := List.mem_map.mp hx
      exact hne

/-- **A move does nothing to the sentinel.** -/
theorem Move.spares (h : Move before input t t') (ht : Tidy t.toReplica) :
    ∀ x ∈ t'.effects, x ∈ t.effects ∨ x.SparesSentinel := by
  intro x hx
  rcases h.outcome_cases with ⟨-, -, more, heff, hquiet⟩ | ⟨e, -, -, hexec⟩
  · by_cases hm : x.IsMessage
    · exact (h.emits hx hm).imp_right fun hemits => hemits.spares ht
    · rw [heff] at hx
      refine (List.mem_append.mp hx).imp_right fun hx => ?_
      have hout := hquiet x hx
      cases x with
      | broadcast m => exact absurd trivial hm
      | send q m => exact absurd trivial hm
      | execute slot command value => exact absurd trivial hout
      | reply request r => exact absurd trivial hout
      | _ => exact trivial
  · exact Turn.spares_executeEntry ht hexec x hx

namespace Replica.Run

variable {fresh r r' : Replica ρ σ} {inputs more : List Input} {effects out : List Effect}

/-- **Chosen entries stay as they are** from any time on. -/
theorem frozen (h : r.Run more r' out) (ht : Tidy r) {s : Slot} {e : LogEntry}
    (hs : r.log.get? s = some e) (hc : e.isCommitted = true) :
    ∃ e', r'.log.get? s = some e' ∧ e'.isCommitted = true ∧ e'.ballot = e.ballot ∧
      e'.command = e.command :=
  h.moved (P := fun _ _ r' => ∃ e', r'.log.get? s = some e' ∧ e'.isCommitted = true ∧
      e'.ballot = e.ballot ∧ e'.command = e.command) ht ⟨e, hs, hc, rfl, rfl⟩
    (fun _ _ _ _ hkept => hkept) fun _ _ _ _ _ _ _ _ hmove ⟨e₁, he₁, hc₁, hb₁, hcmd₁⟩ => by
      obtain ⟨e₂, he₂, hc₂, hb₂, hcmd₂⟩ := hmove.frozen he₁ hc₁
      exact ⟨e₂, he₂, hc₂, hb₂.trans hb₁, hcmd₂.trans hcmd₁⟩

/-- Nothing is ever done to the sentinel. -/
theorem spares (h : fresh.Run inputs r effects) (hf : Tidy fresh) :
    ∀ x ∈ effects, x.SparesSentinel := by
  refine h.moved (P := fun _ effects _ => ∀ x ∈ effects, x.SparesSentinel) hf (by simp)
    (fun _ _ _ _ hold => hold) fun _ prior _ _ t t' ht _ hmove hold x hx => ?_
  rcases List.mem_append.mp hx with hx | hx
  · exact hold x (List.mem_append_left _ hx)
  · rcases hmove.spares ht x hx with hx | hspares
    · exact hold x (List.mem_append_right _ hx)
    · exact hspares

end Replica.Run

variable {fresh r r' : Replica ρ σ} {inputs more : List Input} {effects out : List Effect}

/-- **Chosen values are frozen.** Whatever a replica was given before and is given later: an entry
that is chosen keeps its status, ballot and command. The sentinel is the chosen no-op under the
lowest ballot, and was never reported in a promise, proposed, announced, executed or answered. No
further input makes the replica fail, unless a counter is at its limit or no delay can be made. -/
theorem chosen_frozen {id : ReplicaId} {n : Nat} {config : Config} {source : ρ} {machine : σ}
    (hstart : Replica.start id n config source machine = .ok fresh)
    (hrun : fresh.Run inputs r effects) (hmore : r.Run more r' out) :
    (∀ s e, r.log.get? s = some e → e.status = .committed → ∃ e', r'.log.get? s = some e' ∧
      e'.status = .committed ∧ e'.ballot = e.ballot ∧ e'.command = e.command) ∧
    (∃ e, r'.log.get? Slot.sentinel = some e ∧ e.status = .committed ∧ e.ballot = .zero ∧
      e.command = .noop) ∧
    (∀ x ∈ effects ++ out, x.SparesSentinel) ∧
    ∀ now input f, r'.step now input = .error f →
      r'.AtLimit input f := by
  have hf := Tidy.start hstart
  have hall := hrun.append hmore
  refine ⟨fun s e he hc => ?_, ?_, hall.spares hf,
    fun now input f hs => atLimit_of_step (hall.tidy hf) hs⟩
  · obtain ⟨e', he', hc', hrest⟩ := hmore.frozen (hrun.tidy hf) he (decide_eq_true hc)
    exact ⟨e', he', of_decide_eq_true hc', hrest⟩
  · have hsentinel : fresh.log.get? Slot.sentinel = some (.chosen .zero .noop) := by
      obtain ⟨quorums, rfl⟩ := Replica.start_eq_ok hstart
      simp
    obtain ⟨e, he, hc, hb, hcmd⟩ := hall.frozen hf hsentinel rfl
    exact ⟨e, he, of_decide_eq_true hc, hb, hcmd⟩

/-- Replica 1 takes a command as chosen, and is then told otherwise by an announcement, a proposal
under a higher ballot and a promise, which speak of the sentinel, too. -/
theorem chosen_frozen_contradicted : ∃ r r' : Replica Script Journal,
    (∃ e, r.log.get? 1 = some e ∧ e.status = .committed ∧ e.ballot = ⟨1, some 2⟩ ∧
      e.command = .client [65]) ∧
    r'.ballot = ⟨5, some 3⟩ ∧
    (∃ e, r'.log.get? 1 = some e ∧ e.status = .committed ∧ e.ballot = ⟨1, some 2⟩ ∧
      e.command = .client [65]) ∧
    ∃ e, r'.log.get? Slot.sentinel = some e ∧ e.status = .committed ∧ e.ballot = .zero ∧
      e.command = .noop := by
  obtain ⟨r, effects, r', out, hrun, hmore, hchosen, hballot⟩ := Replica.Run.exists_of_feeds
    (Network.trio.replica 1)
    [.message (.commit ⟨⟨1, some 2⟩, 1, .client [65]⟩)]
    [.message (.commit ⟨⟨3, some 3⟩, 1, .client [66]⟩),
      .message (.commit ⟨⟨3, some 3⟩, 0, .client [66]⟩),
      .message (.accept ⟨⟨4, some 3⟩, 1, .client [67]⟩),
      .message (.accept ⟨⟨4, some 3⟩, 0, .client [67]⟩),
      .message (.promise ⟨⟨5, some 3⟩, 2, .ofPairs
        [(0, ⟨.client [68], ⟨5, some 3⟩, true⟩), (1, ⟨.client [68], ⟨5, some 3⟩, true⟩)]⟩)]
    (fun p p' => (p.1.log.get? 1).any (fun e => e.status = .committed ∧
      e.ballot = ⟨1, some 2⟩ ∧ e.command = .client [65]) = true ∧ p'.1.ballot = ⟨5, some 3⟩)
    (by decide +kernel)
  have hstart : Replica.start 1 3 .standard (⟨[]⟩ : Script) Journal.empty =
      .ok (Network.trio.replica 1) := rfl
  obtain ⟨e, he, hcheck⟩ := (Option.any_eq_true _ _).mp hchosen
  obtain ⟨hc, hb, hcmd⟩ := of_decide_eq_true hcheck
  obtain ⟨hkept, hsentinel, -⟩ := chosen_frozen hstart hrun hmore
  obtain ⟨e', he', hc', hb', hcmd'⟩ := hkept 1 e he hc
  exact ⟨r, r', ⟨e, he, hc, hb, hcmd⟩, hballot, ⟨e', he', hc', hb'.trans hb, hcmd'.trans hcmd⟩,
    hsentinel⟩

end PaxosLog
