import PaxosLog.Proofs.Network.Backing

/-!
# Announcements of a run

A command is announced as chosen by the proposer that asked for votes for it, and every command that
a replica takes as chosen was announced.

* `Choosing.announced`: who announces what.
* `Choosing.entry`, `Choosing.reported`: a chosen command in a log or a report was announced; the
  sentinel, which every log starts with, is not.

**`choosing`**: this is an invariant, together with `Sound`.
-/

namespace PaxosLog

variable {ρ σ : Type}

/-- How choices are announced, kept and reported. -/
structure Choosing (v : View ρ σ) : Prop where
  announced : ∀ p i b s c, v.did p i (.broadcast (.commit ⟨b, s, c⟩)) →
    b.owner = some p ∧ v.Asked b s c
  entry : ∀ p ∈ v.members, ∀ s e, (v.replica p).log.get? s = some e → e.isCommitted = true →
    s = Slot.sentinel ∨ v.Announced s e.command
  reported : ∀ p q m, v.Sent p q (.promise m) → ∀ (s : Slot) (r : PromisedEntry),
    m.log[s]? = some r → r.committed = true → s = Slot.sentinel ∨ v.Announced s r.command

namespace Choosing

variable {spec : QuorumSpec} {v v' : View ρ σ} {id : ReplicaId} {input : Input}
  {before : Replica ρ σ} {t t' : Turn ρ σ}

theorem fresh {net : Network ρ σ} (h : Network.Fresh spec net) : Choosing net.view := by
  refine ⟨fun p i b s c hd => (h.idle hd).elim, fun p hp s e he hc => ?_, ?_⟩
  · exact Or.inl (h.isCommitted hp he).1
  · rintro p q m ⟨i, hd | ⟨-, hd⟩⟩ <;> exact (h.idle hd).elim

variable [RandomSource ρ] [StateMachine σ]

theorem announced_hop (h : Choosing v) (hs : Sound spec v)
    (hop : View.Hop v v' id input before t t') :
    ∀ p i b s c, v'.did p i (.broadcast (.commit ⟨b, s, c⟩)) →
      b.owner = some p ∧ v'.Asked b s c := by
  intro p i b s c hd
  rcases hop.emits hd trivial with hd | ⟨rfl, -, hemits⟩
  · obtain ⟨ho, hasked⟩ := h.announced p i b s c hd
    exact ⟨ho, hop.asked hasked⟩
  · cases hemits with
    | choose s e ho hget hc hb hq =>
      have hid := hs.orderly.id p hop.member
      have hasked := hs.voting.entry p hop.member s e
      rw [hop.here] at hid hasked
      exact ⟨by rw [hb, ho, hid], hop.asked (hasked hget hc)⟩

theorem entry_hop (h : Choosing v) (hs : Sound spec v)
    (hop : View.Hop v v' id input before t t') {s : Slot} {e : LogEntry}
    (he : t'.log.get? s = some e) (hc : e.isCommitted = true) :
    s = Slot.sentinel ∨ v'.Announced s e.command := by
  cases hop.move.origin he with
  | kept e₀ hget hb hcmd hst hacks =>
    rw [hcmd]
    have := h.entry id hop.member s e₀ (by rw [hop.here]; exact hget) (hst.symm.trans hc)
    exact this.imp_right hop.announced
  | asked hc' hb hx hacks => rw [hc'] at hc; cases hc
  | voted hc' hi hb => rw [hc'] at hc; cases hc
  | reported m r hi hr hst hcmd hb hm hnew =>
    obtain ⟨p, hsent⟩ := hop.heard _ hi
    rw [hcmd]
    exact (h.reported p id m hsent s r hr (hst.symm.trans hc)).imp_right hop.announced
  | chosen e₀ hget he hx => exact Or.inr ⟨id, input, e.ballot, hop.now hx⟩
  | learned b hc' hi =>
    obtain ⟨p, hsent⟩ := hop.heard _ hi
    obtain ⟨i, hd⟩ := hs.orderly.broadcast_commit hsent
    exact Or.inr (hop.announced ⟨p, i, b, hd⟩)

theorem reported_hop (h : Choosing v) (hs : Sound spec v)
    (hop : View.Hop v v' id input before t t') {p q : ReplicaId} {m : Promise}
    (hsent : v'.Sent p q (.promise m)) {s : Slot} {r : PromisedEntry} (hr : m.log[s]? = some r)
    (hc : r.committed = true) : s = Slot.sentinel ∨ v'.Announced s r.command := by
  obtain ⟨i, hd⟩ := (hs.orderly.hop hop).send_promise hsent
  rcases hop.emits hd trivial with hd | ⟨rfl, rfl, hemits⟩
  · exact (h.reported p q m ⟨i, Or.inl hd⟩ s r hr hc).imp_right hop.announced
  · cases hemits with
    | answer m' candidate hi ho hle hsame =>
      simp only [Log.getElem?_promised] at hr
      split at hr
      · obtain ⟨e, he, rfl⟩ := Option.map_eq_some_iff.mp hr
        have := h.entry p hop.member s e (by rw [hop.here]; exact he) hc
        exact this.imp_right hop.announced
      · cases hr

/-- **Every hop keeps announcements in order.** -/
theorem hop (h : Choosing v) (hs : Sound spec v) (hop : View.Hop v v' id input before t t') :
    Choosing v' where
  announced := h.announced_hop hs hop
  entry p hp s e he hc := by
    rw [hop.members] at hp
    by_cases heq : p = id
    · subst heq
      rw [hop.here'] at he
      exact h.entry_hop hs hop he hc
    · rw [hop.there p heq] at he
      exact (h.entry p hp s e he hc).imp_right hop.announced
  reported p q m hsent s r := h.reported_hop hs hop hsent

end Choosing

/-- **What a replica takes as chosen was announced, in every run.** -/
theorem choosing [RandomSource ρ] [StateMachine σ] (spec : QuorumSpec) :
    Network.Invariant (ρ := ρ) (σ := σ) spec (fun v => Sound spec v ∧ Choosing v) where
  fresh net hf := ⟨(sound spec).fresh net hf, Choosing.fresh hf⟩
  lead v h := (sound spec).lead v h.1
  hop _ _ _ _ _ _ _ h hop := ⟨(sound spec).hop _ _ _ _ _ _ _ h.1 hop, h.2.hop h.1 hop⟩

end PaxosLog
