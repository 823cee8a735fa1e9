import PaxosLog.Proofs.Network.Backing
import PaxosLog.Proofs.Replica.Duty

/-!
# Where ballots come from

Every ballot in a run was opened by a candidate, but for the one that all replicas begin with, and
whoever asked for votes under its ballot leads for as long as it holds it.

**`heralded`**: this is an invariant.
-/

namespace PaxosLog

variable {ρ σ : Type}

/-- `b` is the ballot of the beginning, or a candidate opened it. -/
def View.Opened (v : View ρ σ) (b : Ballot) : Prop :=
  b = .zero ∨ ∃ p i k, v.did p i (.broadcast (.prepare ⟨b, k⟩))

/-- Where the ballots of a run come from. -/
structure Heralded (v : View ρ σ) : Prop where
  held : ∀ p ∈ v.members, v.Opened (v.replica p).ballot
  carried : ∀ p q m, v.Sent p q m → (∀ c, m ≠ .commit c) → v.Opened m.ballot
  leads : ∀ p i b s c, v.did p i (.broadcast (.accept ⟨b, s, c⟩)) → (v.replica p).ballot = b →
    (v.replica p).active = true

namespace Heralded

variable {spec : QuorumSpec} {v v' : View ρ σ} {id : ReplicaId} {input : Input}
  {before : Replica ρ σ} {t t' : Turn ρ σ}

theorem fresh {net : Network ρ σ} (h : Network.Fresh spec net) : Heralded net.view := by
  refine ⟨fun p hp => .inl (h.replica hp).2.2.2.1, ?_, fun p i b s c hd => (h.idle hd).elim⟩
  rintro p q m ⟨i, hd | ⟨-, hd⟩⟩ <;> exact (h.idle hd).elim

variable [RandomSource ρ] [StateMachine σ]

theorem opened_mono (hop : View.Hop v v' id input before t t') {b : Ballot} (h : v.Opened b) :
    v'.Opened b :=
  h.imp_right fun ⟨p, i, k, hd⟩ => ⟨p, i, k, hop.mono hd⟩

/-- The replica opens its new ballot, or a message brought it. -/
theorem held_hop (h : Heralded v) (hop : View.Hop v v' id input before t t') :
    v'.Opened t'.ballot := by
  have hheld := h.held id hop.member
  rw [hop.here] at hheld
  rcases hop.move.promises_cases with ⟨-, hb | ⟨m, hi, hm, hb, -⟩⟩ | ⟨-, -, -, -, -, hx⟩ |
    ⟨m, -, -, -, hb, -⟩
  · rw [hb]
    exact opened_mono hop hheld
  · obtain ⟨p, hs⟩ := hop.heard m hi
    rw [hb]
    exact opened_mono hop (h.carried p id m hs hm)
  · exact .inr ⟨id, input, _, hop.now hx⟩
  · rw [hb]
    exact opened_mono hop hheld

theorem carried_hop (h : Heralded v) (hop : View.Hop v v' id input before t t')
    {p q : ReplicaId} {m : Message} (hs : v'.Sent p q m) (hm : ∀ c, m ≠ .commit c) :
    v'.Opened m.ballot := by
  obtain ⟨i, hd | ⟨hne, hd⟩⟩ := hs
  · rcases hop.emits hd trivial with hd | ⟨-, -, hemits⟩
    · exact opened_mono hop (h.carried p q m ⟨i, .inl hd⟩ hm)
    · rw [Orderly.ballot_of_emits hemits (.inr ⟨q, rfl⟩) hm]
      exact h.held_hop hop
  · rcases hop.emits hd trivial with hd | ⟨-, -, hemits⟩
    · exact opened_mono hop (h.carried p q m ⟨i, .inr ⟨hne, hd⟩⟩ hm)
    · rw [Orderly.ballot_of_emits hemits (.inl rfl) hm]
      exact h.held_hop hop

theorem leads_hop (h : Heralded v) (hv : Voting v) (hop : View.Hop v v' id input before t t')
    {i : Input} {b : Ballot} {s : Slot} {c : Command}
    (hd : v'.did id i (.broadcast (.accept ⟨b, s, c⟩))) (hb : t'.ballot = b) :
    t'.active = true := by
  rcases hop.emits hd trivial with hd | ⟨-, -, hemits⟩
  · -- the replica held `b` when it asked, and holds it now
    have hle := (hv.voted id b s c (.inl ⟨i, hd⟩)).1
    have hleads := h.leads id i b s c hd
    rw [hop.here] at hle hleads
    have hsame : t.ballot = b := Std.le_antisymm (hb ▸ hop.move.ballot_le) hle
    exact hop.move.active_kept (hleads hsame) (hb.trans hsame.symm)
  · cases hemits with
    | ask s e ha hsame hs hs' hc heb hnew => exact hop.move.active_kept ha hsame

theorem hop (h : Heralded v) (hv : Voting v) (hop : View.Hop v v' id input before t t') :
    Heralded v' where
  held p hp := by
    rw [hop.members] at hp
    by_cases heq : p = id
    · subst heq
      rw [hop.here']
      exact h.held_hop hop
    · rw [hop.there p heq]
      exact opened_mono hop (h.held p hp)
  carried p q m := h.carried_hop hop
  leads p i b s c hd hb := by
    by_cases heq : p = id
    · subst heq
      rw [hop.here'] at hb ⊢
      exact h.leads_hop hv hop hd hb
    · rw [hop.there p heq] at hb ⊢
      rcases (hop.did p i _).mp hd with hd | ⟨hp, -⟩
      · exact h.leads p i b s c hd hb
      · exact absurd hp heq

end Heralded

/-- **Ballots are opened before they are used.** -/
theorem heralded [RandomSource ρ] [StateMachine σ] (spec : QuorumSpec) :
    Network.Invariant (ρ := ρ) (σ := σ) spec fun v => Sound spec v ∧ Heralded v where
  fresh net hf := ⟨(sound spec).fresh net hf, Heralded.fresh hf⟩
  lead v h := (sound spec).lead v h.1
  hop _ _ _ _ _ _ _ h hop := ⟨(sound spec).hop _ _ _ _ _ _ _ h.1 hop, h.2.hop h.1.voting hop⟩

end PaxosLog
