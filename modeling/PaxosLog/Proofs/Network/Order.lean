import PaxosLog.Proofs.Network.View

/-!
# Who holds which ballot

`Orderly` collects what holds in every run before any question of votes: members keep their identity
and thresholds and are tidy, messages travel as the protocol has it, and every ballot that a member
holds or a message carries was seen by its owner, who is a member.

**`orderly`**: this is an invariant.
-/

namespace PaxosLog

/-- The messages that are broadcast, and those that are sent to one replica. -/
def Effect.Proper : Effect → Prop
  | .broadcast (.promise _) => False
  | .broadcast (.accepted _) => False
  | .send _ (.prepare _) => False
  | .send _ (.accept _) => False
  | .send _ (.commit _) => False
  | _ => True

theorem QuorumSpec.clusterSize_of_flexible {n phase1 phase2 : Nat} {spec : QuorumSpec}
    (h : QuorumSpec.flexible n phase1 phase2 = .ok spec) : spec.clusterSize = n := by
  unfold flexible at h
  repeat' split at h
  all_goals cases h
  rfl

/-- Thresholds of a configuration are for the cluster they were asked for. -/
theorem Config.clusterSize_of_quorums {config : Config} {n : Nat} {spec : QuorumSpec}
    (h : config.quorums n = .ok spec) : spec.clusterSize = n := by
  unfold quorums at h
  split at h
  · unfold QuorumSpec.majority at h
    split at h
    · cases h
    · cases h; rfl
  · exact QuorumSpec.clusterSize_of_flexible h

variable {ρ σ : Type}

/-- What holds in every run before any question of votes. -/
structure Orderly (spec : QuorumSpec) (v : View ρ σ) : Prop where
  distinct : v.members.Nodup
  size : spec.clusterSize = v.members.length
  id : ∀ p ∈ v.members, (v.replica p).id = p
  quorums : ∀ p ∈ v.members, (v.replica p).quorums = spec
  tidy : ∀ p ∈ v.members, Tidy (v.replica p)
  /-- A replica's votes are not above its ballot. -/
  bound : ∀ p ∈ v.members, ∀ s e, (v.replica p).log.get? s = some e → e.isCommitted = false →
    e.ballot ≤ (v.replica p).ballot
  known : ∀ p ∈ v.members, v.Known (v.replica p).ballot
  member : ∀ p i x, v.did p i x → p ∈ v.members
  proper : ∀ p i x, v.did p i x → x.Proper
  carried : ∀ p q m, v.Sent p q m → (∀ c, m ≠ .commit c) → v.Known m.ballot
  /-- A promise does not report votes above its ballot. -/
  promise : ∀ p q m, v.Sent p q (.promise m) → m.sender = p ∧ m.ballot ≤ (v.replica p).ballot ∧
    ∀ (s : Slot) (r : PromisedEntry), m.log[s]? = some r → r.committed = false → r.ballot ≤ m.ballot

namespace Orderly

variable {spec : QuorumSpec} {v : View ρ σ}

/-! ## How messages travel -/

theorem broadcast_accept (h : Orderly spec v) {p q : ReplicaId} {a : Accept}
    (hs : v.Sent p q (.accept a)) : q ≠ p ∧ ∃ i, v.did p i (.broadcast (.accept a)) := by
  obtain ⟨i, hd | ⟨hne, hd⟩⟩ := hs
  · exact (h.proper _ _ _ hd).elim
  · exact ⟨hne, i, hd⟩

theorem broadcast_prepare (h : Orderly spec v) {p q : ReplicaId} {m : Prepare}
    (hs : v.Sent p q (.prepare m)) : ∃ i, v.did p i (.broadcast (.prepare m)) := by
  obtain ⟨i, hd | ⟨-, hd⟩⟩ := hs
  · exact (h.proper _ _ _ hd).elim
  · exact ⟨i, hd⟩

theorem broadcast_commit (h : Orderly spec v) {p q : ReplicaId} {m : Commit}
    (hs : v.Sent p q (.commit m)) : ∃ i, v.did p i (.broadcast (.commit m)) := by
  obtain ⟨i, hd | ⟨-, hd⟩⟩ := hs
  · exact (h.proper _ _ _ hd).elim
  · exact ⟨i, hd⟩

theorem send_promise (h : Orderly spec v) {p q : ReplicaId} {m : Promise}
    (hs : v.Sent p q (.promise m)) : ∃ i, v.did p i (.send q (.promise m)) := by
  obtain ⟨i, hd | ⟨-, hd⟩⟩ := hs
  · exact ⟨i, hd⟩
  · exact (h.proper _ _ _ hd).elim

theorem send_accepted (h : Orderly spec v) {p q : ReplicaId} {m : Accepted}
    (hs : v.Sent p q (.accepted m)) : ∃ i, v.did p i (.send q (.accepted m)) := by
  obtain ⟨i, hd | ⟨-, hd⟩⟩ := hs
  · exact ⟨i, hd⟩
  · exact (h.proper _ _ _ hd).elim

/-! ## The hops keep it -/

theorem fresh {net : Network ρ σ} (h : Network.Fresh spec net) : Orderly spec net.view := by
  obtain ⟨config, hq, -⟩ := h.started
  have hunsent : ∀ p q m, ¬ net.view.Sent p q m := by
    rintro p q m ⟨i, hd | ⟨-, hd⟩⟩ <;> exact h.idle hd
  refine ⟨h.distinct, Config.clusterSize_of_quorums hq, fun p hp => (h.replica hp).1,
    fun p hp => (h.replica hp).2.1, fun p hp => (h.replica hp).2.2.2.2, ?_, ?_,
    fun p i x hd => (h.idle hd).elim, fun p i x hd => (h.idle hd).elim,
    fun p q m hs => (hunsent p q m hs).elim, fun p q m hs => (hunsent p q _ hs).elim⟩
  · intro p hp s e he hc
    rw [(h.isCommitted hp he).2] at hc
    cases hc
  · intro p hp q hq
    change (net.replica p).ballot.owner = some q at hq
    rw [(h.replica hp).2.2.2.1] at hq
    cases hq

variable {v' : View ρ σ} {id : ReplicaId} {input : Input} {before : Replica ρ σ}
  {t t' : Turn ρ σ}

/-- A message of a move that is no announcement carries the ballot of the replica after it. -/
theorem ballot_of_emits {x : Effect} {m : Message} (h : Emits before input t t' x)
    (hx : x = .broadcast m ∨ ∃ q, x = .send q m) (hm : ∀ c, m ≠ .commit c) :
    m.ballot = t'.ballot := by
  cases h with
  | prepare hlog hsame hlt ho => obtain h | ⟨q, h⟩ := hx <;> cases h; rfl
  | ask s e ha hb hs hs' hc heb => obtain h | ⟨q, h⟩ := hx <;> cases h; rfl
  | choose s e ho hs hc hb hq =>
    obtain h | ⟨q, h⟩ := hx <;> cases h
    exact absurd rfl (hm _)
  | answer m' candidate hi ho hle hsame =>
    obtain h | ⟨q, h⟩ := hx <;> cases h
    exact (congrArg Replica.ballot hsame).symm
  | vote m' proposer hi ho hb hb' hj => obtain h | ⟨q, h⟩ := hx <;> cases h; exact hb'.symm
  | refuse m' proposer hi ho hbefore hlt hsame =>
    obtain h | ⟨q, h⟩ := hx <;> cases h
    exact (congrArg Replica.ballot hsame).symm

theorem proper_of_emits {x : Effect} (h : Emits before input t t' x) : x.Proper := by
  cases h <;> trivial

variable [RandomSource ρ] [StateMachine σ]

/-- The message that a replica handles was sent by somebody, and is known to its owner. -/
theorem heard (h : Orderly spec v) (hop : View.Hop v v' id input before t t') {m : Message}
    (hi : input = .message m) (hm : ∀ c, m ≠ .commit c) : v.Known m.ballot := by
  obtain ⟨p, hs⟩ := hop.heard m hi
  exact h.carried p id m hs hm

/-- Logs grow. -/
theorem grows (h : Orderly spec v) (hop : View.Hop v v' id input before t t') (p : ReplicaId) :
    (v.replica p).log.Grows (v'.replica p).log := by
  by_cases hp : p = id
  · subst hp
    have hb := h.bound p hop.member
    rw [hop.here] at hb
    rw [hop.here, hop.here']
    exact hop.move.grows hb
  · rw [hop.there p hp]
    exact Log.grows_refl _

theorem bound_hop (h : Orderly spec v) (hop : View.Hop v v' id input before t t') :
    ∀ s e, t'.log.get? s = some e → e.isCommitted = false → e.ballot ≤ t'.ballot := by
  intro s e he hc
  have hle := hop.move.ballot_le
  cases hop.move.origin he with
  | kept e₀ hs hb hcmd hst hacks =>
    have := h.bound id hop.member s e₀ (by rw [hop.here]; exact hs) (hst.symm.trans hc)
    rw [hop.here] at this
    rw [hb]
    exact Std.le_trans this hle
  | asked hc' hb hx hacks => rw [hb]; exact Std.le_refl _
  | voted hc' hi hb => rw [hb]; exact Std.le_refl _
  | reported m r hi hr hst hcmd hb hm hnew =>
    obtain ⟨p, hs⟩ := hop.heard _ hi
    have := (h.promise p id m hs).2.2 s r hr (hst.symm.trans hc)
    rw [hb hc]
    exact Std.le_trans this hm
  | chosen e₀ hs he hx => rw [he] at hc; cases hc
  | learned b hc' hi => rw [hc] at hc'; cases hc'

theorem known_hop (h : Orderly spec v) (hop : View.Hop v v' id input before t t') :
    v'.Known t'.ballot := by
  rcases hop.move.ballot_cases with hb | ho | ⟨m, hi, hm, hb⟩
  · have := h.known id hop.member
    rw [hop.here] at this
    rw [hb]
    exact hop.known this
  · intro p hp
    have hpid : p = id := by
      have := h.id id hop.member
      rw [hop.here] at this
      rw [ho, Option.some_inj] at hp
      exact hp.symm.trans this
    rw [hpid, hop.here', hop.members]
    exact ⟨hop.member, Std.le_refl _⟩
  · rw [hb]
    exact hop.known (h.heard hop hi hm)

theorem carried_hop (h : Orderly spec v) (hop : View.Hop v v' id input before t t')
    {p q : ReplicaId} {m : Message} (hs : v'.Sent p q m) (hm : ∀ c, m ≠ .commit c) :
    v'.Known m.ballot := by
  obtain ⟨i, hd | ⟨hne, hd⟩⟩ := hs
  · rcases hop.emits hd trivial with hd | ⟨-, -, hemits⟩
    · exact hop.known (h.carried p q m ⟨i, Or.inl hd⟩ hm)
    · rw [ballot_of_emits hemits (Or.inr ⟨q, rfl⟩) hm]
      exact h.known_hop hop
  · rcases hop.emits hd trivial with hd | ⟨-, -, hemits⟩
    · exact hop.known (h.carried p q m ⟨i, Or.inr ⟨hne, hd⟩⟩ hm)
    · rw [ballot_of_emits hemits (Or.inl rfl) hm]
      exact h.known_hop hop

theorem promise_hop (h : Orderly spec v) (hop : View.Hop v v' id input before t t')
    {p q : ReplicaId} {m : Promise} (hd : v'.Sent p q (.promise m))
    (hproper : ∀ p i x, v'.did p i x → x.Proper) :
    m.sender = p ∧ m.ballot ≤ (v'.replica p).ballot ∧
      ∀ (s : Slot) (r : PromisedEntry), m.log[s]? = some r → r.committed = false →
        r.ballot ≤ m.ballot := by
  obtain ⟨i, hd | ⟨-, hd⟩⟩ := hd
  · rcases hop.emits hd trivial with hd | ⟨rfl, rfl, hemits⟩
    · obtain ⟨hsender, hle, hlog⟩ := h.promise p q m ⟨i, Or.inl hd⟩
      exact ⟨hsender, Std.le_trans hle (hop.ballot_le p), hlog⟩
    · cases hemits with
      | answer m' candidate hi ho hle hsame =>
        refine ⟨?_, ?_, fun s r hr hc => ?_⟩
        · have := h.id p hop.member
          rw [hop.here] at this
          exact this
        · rw [hop.here']
          exact hop.move.ballot_le
        · simp only [Log.getElem?_promised] at hr
          split at hr
          · obtain ⟨e, he, rfl⟩ := Option.map_eq_some_iff.mp hr
            have := h.bound p hop.member s e (by rw [hop.here]; exact he) hc
            rw [hop.here] at this
            exact this
          · cases hr
  · exact (hproper _ _ _ hd).elim

theorem proper_hop (h : Orderly spec v) (hop : View.Hop v v' id input before t t') :
    ∀ p i x, v'.did p i x → x.Proper := by
  intro p i x hd
  by_cases hx : x.IsMessage
  · rcases hop.emits hd hx with hd | ⟨-, -, hemits⟩
    · exact h.proper p i x hd
    · exact proper_of_emits hemits
  · cases x with
    | broadcast m => exact absurd trivial hx
    | send q m => exact absurd trivial hx
    | _ => trivial

/-- **Every hop keeps a run orderly.** -/
theorem hop (h : Orderly spec v) (hop : View.Hop v v' id input before t t') : Orderly spec v' where
  distinct := hop.members ▸ h.distinct
  size := hop.members ▸ h.size
  id p hp := by
    rw [hop.members] at hp
    have hid := h.id p hp
    by_cases heq : p = id
    · subst heq
      rw [hop.here] at hid
      rw [hop.here', hop.move.id_eq, hid]
    · rw [hop.there p heq, hid]
  quorums p hp := by
    rw [hop.members] at hp
    have hq := h.quorums p hp
    by_cases heq : p = id
    · subst heq
      rw [hop.here] at hq
      rw [hop.here', hop.move.quorums_eq, hq]
    · rw [hop.there p heq, hq]
  tidy p hp := by
    rw [hop.members] at hp
    have ht := h.tidy p hp
    by_cases heq : p = id
    · subst heq
      rw [hop.here] at ht
      rw [hop.here']
      exact ht.move hop.move
    · rw [hop.there p heq]
      exact ht
  bound p hp := by
    rw [hop.members] at hp
    by_cases heq : p = id
    · subst heq
      rw [hop.here']
      exact h.bound_hop hop
    · rw [hop.there p heq]
      exact h.bound p hp
  known p hp := by
    rw [hop.members] at hp
    by_cases heq : p = id
    · subst heq
      rw [hop.here']
      exact h.known_hop hop
    · rw [hop.there p heq]
      exact hop.known (h.known p hp)
  member p i x hd := by
    rw [hop.members]
    rcases (hop.did p i x).mp hd with hd | ⟨rfl, -, -⟩
    · exact h.member p i x hd
    · exact hop.member
  proper := proper_hop h hop
  carried p q m := h.carried_hop hop
  promise p q m hs := h.promise_hop hop hs (proper_hop h hop)

end Orderly

/-- **Runs are orderly.** -/
theorem orderly [RandomSource ρ] [StateMachine σ] (spec : QuorumSpec) :
    Network.Invariant (ρ := ρ) (σ := σ) spec (Orderly spec) where
  fresh _ := Orderly.fresh
  lead _ h p hp ha := ((h.tidy p hp).lead ha).1
  hop _ _ _ _ _ _ _ := Orderly.hop

end PaxosLog
