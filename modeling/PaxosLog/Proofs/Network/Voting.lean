import PaxosLog.Proofs.Network.Order

/-!
# Votes of a run

What the votes that were cast and the votes that replicas report have to do with each other.

* `Voting.owner`, `Voting.unique`: votes are asked for by the owner of the ballot, and for one
  command for each ballot and slot.
* `Voting.entry`, `Voting.reported`: a vote in a log or a report was asked for.
* `Voting.voted`: a vote that was cast leaves a trace in the log of its replica.

**`Voting.hop`**: every hop keeps this.
-/

namespace PaxosLog

variable {ρ σ : Type}

namespace View.Hop

variable [RandomSource ρ] [StateMachine σ] {v v' : View ρ σ} {id : ReplicaId} {input : Input}
  {before : Replica ρ σ} {t t' : Turn ρ σ}

/-- A vote is an old one, or is cast in the move by the replica that asks or is asked for it. -/
theorem voted_cases (h : Hop v v' id input before t t') {r : ReplicaId} {b : Ballot} {s : Slot}
    {c : Command} (hv : v'.Voted r b s c) :
    v.Voted r b s c ∨ r = id ∧ b = t'.ballot ∧
      (Emits before input t t' (.broadcast (.accept ⟨b, s, c⟩)) ∧ v'.Asked b s c ∨
        input = .message (.accept ⟨b, s, c⟩) ∧ Log.Joined t.log t'.log s ⟨c, b, false⟩) := by
  rcases hv with ⟨i, hd'⟩ | ⟨q, hd⟩
  · rcases h.emits hd' trivial with hd | ⟨rfl, -, hs⟩
    · exact Or.inl (Or.inl ⟨i, hd⟩)
    · refine Or.inr ⟨rfl, ?_, Or.inl ⟨hs, r, i, hd'⟩⟩
      cases hs
      rfl
  · rcases h.emits hd trivial with hd | ⟨rfl, hi, hs⟩
    · exact Or.inl (Or.inr ⟨q, hd⟩)
    · cases hs with
      | vote m proposer hi' ho hb hb' hj =>
        obtain ⟨ballot, slot, command⟩ := m
        rw [← hi] at hi'
        cases hi'
        exact Or.inr ⟨rfl, hb'.symm, Or.inr ⟨hi.symm, hj⟩⟩
      | refuse m proposer hi' ho hbefore hlt hsame =>
        obtain ⟨ballot, slot, command⟩ := m
        rw [← hi] at hi'
        cases hi'
        exact absurd hlt Std.lt_irrefl

/-- Votes below a ballot that the voter has reached are old ones. -/
theorem old_vote (h : Hop v v' id input before t t') {r : ReplicaId} {b b' : Ballot} {s : Slot}
    {c : Command} (hv : v'.Voted r b' s c) (hlt : b' < b) (hle : b ≤ (v'.replica r).ballot) :
    v.Voted r b' s c := by
  rcases h.voted_cases hv with hv | ⟨rfl, rfl, -⟩
  · exact hv
  · rw [h.here'] at hle
    exact absurd (Std.lt_of_lt_of_le hlt hle) Std.lt_irrefl

end View.Hop

/-- How votes are asked for, cast, kept and reported. -/
structure Voting (v : View ρ σ) : Prop where
  entry : ∀ p ∈ v.members, ∀ s e, (v.replica p).log.get? s = some e → e.isCommitted = false →
    v.Asked e.ballot s e.command
  reported : ∀ p q m, v.Sent p q (.promise m) → ∀ (s : Slot) (r : PromisedEntry),
    m.log[s]? = some r → r.committed = false → v.Asked r.ballot s r.command
  owner : ∀ p i b s c, v.did p i (.broadcast (.accept ⟨b, s, c⟩)) → b.owner = some p
  voted : ∀ r b s c, v.Voted r b s c →
    b ≤ (v.replica r).ballot ∧ v.Asked b s c ∧ (v.replica r).log.Recalls s b c
  unique : ∀ b s c c', v.Asked b s c → v.Asked b s c' → c = c'

namespace Voting

variable {spec : QuorumSpec} {v v' : View ρ σ} {id : ReplicaId} {input : Input}
  {before : Replica ρ σ} {t t' : Turn ρ σ}

theorem fresh {net : Network ρ σ} (h : Network.Fresh spec net) : Voting net.view := by
  refine ⟨fun p hp s e he hc => ?_, ?_, fun p i b s c hd => (h.idle hd).elim, ?_, ?_⟩
  · rw [(h.isCommitted hp he).2] at hc
    cases hc
  · rintro p q m ⟨i, hd | ⟨-, hd⟩⟩ <;> exact (h.idle hd).elim
  · rintro r b s c (⟨i, hd⟩ | ⟨q, hd⟩) <;> exact (h.idle hd).elim
  · rintro b s c c' ⟨p, i, hd⟩
    exact (h.idle hd).elim

variable [RandomSource ρ] [StateMachine σ]

theorem owner_hop (h : Voting v) (ho : Orderly spec v) (hop : View.Hop v v' id input before t t') :
    ∀ p i b s c, v'.did p i (.broadcast (.accept ⟨b, s, c⟩)) → b.owner = some p := by
  intro p i b s c hd
  rcases hop.emits hd trivial with hd | ⟨rfl, -, hs⟩
  · exact h.owner p i b s c hd
  · cases hs with
    | ask s e ha hb hs hs' hc heb =>
      have hid := ho.id p hop.member
      have hlead := (ho.tidy p hop.member).lead
      rw [hop.here] at hid hlead
      rw [hb, (hlead ha).1, hid]

theorem entry_hop (h : Voting v) (ho : Orderly spec v) (hop : View.Hop v v' id input before t t')
    {s : Slot} {e : LogEntry} (he : t'.log.get? s = some e) (hc : e.isCommitted = false) :
    v'.Asked e.ballot s e.command := by
  cases hop.move.origin he with
  | kept e₀ hs hb hcmd hst hacks =>
    rw [hb, hcmd]
    exact hop.asked (h.entry id hop.member s e₀ (by rw [hop.here]; exact hs) (hst.symm.trans hc))
  | asked hc' hb hx hacks => exact ⟨id, input, hop.now hx⟩
  | voted hc' hi hb =>
    obtain ⟨p, hs⟩ := hop.heard _ hi
    obtain ⟨-, i, hd⟩ := ho.broadcast_accept hs
    exact hop.asked ⟨p, i, hd⟩
  | reported m r hi hr hst hcmd hb hm hnew =>
    obtain ⟨p, hs⟩ := hop.heard _ hi
    rw [hb hc, hcmd]
    exact hop.asked (h.reported p id m hs s r hr (hst.symm.trans hc))
  | chosen e₀ hs he hx => rw [he] at hc; cases hc
  | learned b hc' hi => rw [hc] at hc'; cases hc'

theorem reported_hop (h : Voting v) (ho : Orderly spec v)
    (hop : View.Hop v v' id input before t t') :
    ∀ p q m, v'.Sent p q (.promise m) → ∀ (s : Slot) (r : PromisedEntry),
      m.log[s]? = some r → r.committed = false → v'.Asked r.ballot s r.command := by
  intro p q m hs s r hr hc
  obtain ⟨i, hd⟩ := (ho.hop hop).send_promise hs
  rcases hop.emits hd trivial with hd | ⟨rfl, -, hemits⟩
  · exact hop.asked (h.reported p q m ⟨i, Or.inl hd⟩ s r hr hc)
  · cases hemits with
    | answer m' candidate hi hcand hle hsame =>
      simp only [Log.getElem?_promised] at hr
      split at hr
      · obtain ⟨e, he, rfl⟩ := Option.map_eq_some_iff.mp hr
        exact hop.asked (h.entry p hop.member s e (by rw [hop.here]; exact he) hc)
      · cases hr

/-- The commands that one ballot asks votes for at a slot agree. -/
theorem unique_hop (h : Voting v) (ho : Orderly spec v)
    (hop : View.Hop v v' id input before t t') :
    ∀ b s c c', v'.Asked b s c → v'.Asked b s c' → c = c' := by
  -- What a leader asks for now is what it asked for before: its own vote is in its log.
  have hagain : ∀ p i b s c c', v.did p i (.broadcast (.accept ⟨b, s, c'⟩)) →
      Emits before input t t' (.broadcast (.accept ⟨b, s, c⟩)) → c = c' := by
    intro p i b s c c' hd hs
    cases hs with
    | ask s e ha hb hs hs' hc heb =>
      have hid := ho.id id hop.member
      have hlead := (ho.tidy id hop.member).lead
      have hbound := ho.bound id hop.member s
      rw [hop.here] at hid hlead hbound
      have hp : p = id := by
        have := h.owner _ _ _ _ _ hd
        rw [hb, (hlead ha).1, Option.some_inj] at this
        exact this.symm.trans hid
      subst hp
      obtain ⟨-, -, e₀, he₀, hv⟩ := h.voted p t'.ballot s c' (Or.inl ⟨i, hd⟩)
      rw [hop.here] at he₀
      obtain ⟨hc₀, hcmd⟩ := hs e₀ he₀
      obtain ⟨hle, hsame⟩ := hv.resolve_left (by simp [hc₀])
      have hb₀ := hbound e₀ he₀ hc₀
      rw [hb] at hle hsame
      rw [hcmd, hsame (Std.le_antisymm hb₀ hle)]
  rintro b s c c' ⟨p, i, hd⟩ ⟨p', i', hd'⟩
  rcases hop.emits hd trivial with hd | ⟨-, -, hs⟩ <;>
    rcases hop.emits hd' trivial with hd' | ⟨-, -, hs'⟩
  · exact h.unique b s c c' ⟨p, i, hd⟩ ⟨p', i', hd'⟩
  · exact (hagain p i b s c' c hd hs').symm
  · exact hagain p' i' b s c c' hd' hs
  · cases hs with
    | ask s e ha hb hold hnew hc heb =>
      cases hs' with
      | ask s e' ha' hb' hold' hnew' hc' heb' =>
        rw [hnew, Option.some_inj] at hnew'
        rw [hnew']

theorem voted_hop (h : Voting v) (ho : Orderly spec v)
    (hop : View.Hop v v' id input before t t') :
    ∀ r b s c, v'.Voted r b s c →
      b ≤ (v'.replica r).ballot ∧ v'.Asked b s c ∧ (v'.replica r).log.Recalls s b c := by
  intro r b s c hv
  rcases hop.voted_cases hv with hv | ⟨rfl, hb, ⟨hs, hasked⟩ | ⟨hi, hj⟩⟩
  · obtain ⟨hle, hasked, hrec⟩ := h.voted r b s c hv
    exact ⟨Std.le_trans hle (hop.ballot_le r), hop.asked hasked, hrec.grows (ho.grows hop r)⟩
  · rw [hop.here']
    refine ⟨hb ▸ Std.le_refl _, hasked, ?_⟩
    cases hs with
    | ask s e ha hb hold hnew hc heb =>
      exact ⟨e, hnew, Or.inr ⟨heb ▸ Std.le_refl _, fun _ => rfl⟩⟩
  · obtain ⟨p, hs⟩ := hop.heard _ hi
    obtain ⟨-, i, hd⟩ := ho.broadcast_accept hs
    rw [hop.here']
    refine ⟨hb ▸ Std.le_refl _, hop.asked ⟨p, i, hd⟩, hj.recalls fun e he hc heb => ?_⟩
    have := h.entry r hop.member s e (by rw [hop.here]; exact he) hc
    rw [heb] at this
    exact h.unique b s _ _ this ⟨p, i, hd⟩

/-- **Every hop keeps the account of votes.** -/
theorem hop (h : Voting v) (ho : Orderly spec v) (hop : View.Hop v v' id input before t t') :
    Voting v' where
  entry p hp s e he hc := by
    rw [hop.members] at hp
    by_cases heq : p = id
    · subst heq
      rw [hop.here'] at he
      exact h.entry_hop ho hop he hc
    · rw [hop.there p heq] at he
      exact hop.asked (h.entry p hp s e he hc)
  reported := h.reported_hop ho hop
  owner := h.owner_hop ho hop
  voted := h.voted_hop ho hop
  unique := h.unique_hop ho hop

end Voting

end PaxosLog
