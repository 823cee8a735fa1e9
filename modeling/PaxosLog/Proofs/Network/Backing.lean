import PaxosLog.Proofs.Network.Voting

/-!
# What promises are good for

A promise reports what its sender voted for below the ballot that it promises, so a candidate with a
quorum of promises knows every vote of these replicas below its ballot, and they cast no more of
them.

* `Backing.covers`: a report covers the votes of its sender, but for slots that the candidate has
  executed.
* `Backing.backed`: so does the log of a candidate that folded the report in.
* `Backing.safe`: a leader asks for votes for the last command that was voted for below its ballot,
  if any was (`View.SafeAt`).

**`sound`**: this is an invariant, together with `Orderly` and `Voting`.
-/

namespace PaxosLog

variable {ρ σ : Type}

/-- A quorum for phase 1 has reached `b`, and below `b` none of it voted at `s`, or none of it later
than when votes were asked for `c`. -/
def View.SafeAt (spec : QuorumSpec) (v : View ρ σ) (b : Ballot) (s : Slot) (c : Command) : Prop :=
  ∃ voters : List ReplicaId, voters.Nodup ∧ spec.phase1 ≤ voters.length ∧
    (∀ r ∈ voters, r ∈ v.members ∧ b ≤ (v.replica r).ballot) ∧
    ((∀ r ∈ voters, ∀ b₁ c₁, v.Voted r b₁ s c₁ → b ≤ b₁) ∨
      ∃ b₀, b₀ < b ∧ v.Asked b₀ s c ∧
        ∀ r ∈ voters, ∀ b₁ c₁, v.Voted r b₁ s c₁ → b₁ < b → b₁ ≤ b₀)

/-- What promises are good for. -/
structure Backing (spec : QuorumSpec) (v : View ρ σ) : Prop where
  opened : ∀ p i b k, v.did p i (.broadcast (.prepare ⟨b, k⟩)) →
    b.owner = some p ∧ b ≤ (v.replica p).ballot ∧ k ≤ (v.replica p).log.executeCursor
  covers : ∀ p q m, v.Sent p q (.promise m) → ∀ b s c, v.Voted p b s c → b < m.ballot →
    s < (v.replica q).log.executeCursor ∨ Log.ReportRecalls m.log s b c
  backed : ∀ p ∈ v.members, (v.replica p).ballot.owner = some p →
    ∀ r ∈ (v.replica p).promises.voters, r ∈ v.members ∧
      (v.replica p).ballot ≤ (v.replica r).ballot ∧
      ∀ b s c, v.Voted r b s c → b < (v.replica p).ballot → (v.replica p).log.Recalls s b c
  safe : ∀ b s c, v.Asked b s c → v.SafeAt spec b s c

namespace Backing

variable {spec : QuorumSpec} {v v' : View ρ σ} {id : ReplicaId} {input : Input}
  {before : Replica ρ σ} {t t' : Turn ρ σ}

theorem fresh {net : Network ρ σ} (h : Network.Fresh spec net) : Backing spec net.view := by
  refine ⟨fun p i b k hd => (h.idle hd).elim, ?_, fun p hp ho => ?_, ?_⟩
  · rintro p q m ⟨i, hd | ⟨-, hd⟩⟩ <;> exact (h.idle hd).elim
  · change (net.replica p).ballot.owner = some p at ho
    rw [(h.replica hp).2.2.2.1] at ho
    cases ho
  · rintro b s c ⟨p, i, hd⟩
    exact (h.idle hd).elim

/-- The cursor of a member is past the sentinel. -/
theorem first_le (ho : Orderly spec v) {p : ReplicaId} (hp : p ∈ v.members) {s : Slot}
    (hs : s < Slot.first) : s < (v.replica p).log.executeCursor :=
  Std.lt_of_lt_of_le hs (ho.tidy p hp).first_le

/-- A candidate's log takes over what a promise for its ballot reports. -/
theorem recalls_of_promise (h : Backing spec v) (ho : Orderly spec v) (hv : Voting v)
    (hid : id ∈ v.members) (hhere : v.replica id = t.toReplica) {p : ReplicaId} {m : Promise}
    (hs : v.Sent p id (.promise m)) (hj : Log.Merged t.log t'.log m.log) {b : Ballot} {s : Slot}
    {c : Command} (hvote : v.Voted p b s c) (hlt : b < m.ballot) : t'.log.Recalls s b c := by
  have hdone := (ho.tidy id hid).done s
  have hentry := hv.entry id hid s
  have hfirst := first_le ho hid (s := s)
  have hcover := h.covers p id m hs b s c hvote hlt
  rw [hhere] at hdone hentry hfirst hcover
  have hexecuted : s < t.log.executeCursor → t'.log.Recalls s b c := by
    intro hlt
    obtain ⟨e, he, hc⟩ := hdone hlt
    exact Log.Recalls.grows hj.grows ⟨e, he, Or.inl hc⟩
  rcases hcover with hlt | hrec
  · exact hexecuted hlt
  · by_cases h0 : s = Slot.sentinel
    · exact hexecuted (hfirst (by rw [h0]; decide))
    · refine hj.recalls h0 hrec fun e he hc heb => ?_
      have hasked := hentry e he hc
      rw [heb] at hasked
      exact hv.unique b s _ _ hasked (hv.voted p b s c hvote).2.1

variable [RandomSource ρ] [StateMachine σ]

theorem opened_hop (h : Backing spec v) (ho : Orderly spec v)
    (hop : View.Hop v v' id input before t t') :
    ∀ p i b k, v'.did p i (.broadcast (.prepare ⟨b, k⟩)) →
      b.owner = some p ∧ b ≤ (v'.replica p).ballot ∧ k ≤ (v'.replica p).log.executeCursor := by
  intro p i b k hd
  have hcursor := (ho.grows hop p).cursor
  rcases hop.emits hd trivial with hd | ⟨rfl, -, hs⟩
  · obtain ⟨howner, hle, hk⟩ := h.opened p i b k hd
    exact ⟨howner, Std.le_trans hle (hop.ballot_le p), Std.le_trans hk hcursor⟩
  · have hid := ho.id p hop.member
    rw [hop.here] at hid hcursor
    cases hs with
    | prepare hlog hsame hlt howner =>
      rw [hop.here'] at hcursor ⊢
      exact ⟨hid ▸ howner, Std.le_refl _, hcursor⟩

theorem covers_hop (h : Backing spec v) (ho : Orderly spec v) (hv : Voting v)
    (hop : View.Hop v v' id input before t t') :
    ∀ p q m, v'.Sent p q (.promise m) → ∀ b s c, v'.Voted p b s c → b < m.ballot →
      s < (v'.replica q).log.executeCursor ∨ Log.ReportRecalls m.log s b c := by
  intro p q m hs b s c hvote hlt
  obtain ⟨i, hd⟩ := (ho.hop hop).send_promise hs
  have hcursor := (ho.grows hop q).cursor
  rcases hop.emits hd trivial with hd | ⟨rfl, -, hemits⟩
  · have hm := (ho.promise p q m ⟨i, Or.inl hd⟩).2.1
    have hold := hop.old_vote hvote hlt (Std.le_trans hm (hop.ballot_le p))
    refine (h.covers p q m ⟨i, Or.inl hd⟩ b s c hold hlt).imp_left fun hlt => ?_
    exact Std.lt_of_lt_of_le hlt hcursor
  · cases hemits with
    | answer m₀ candidate hi hcand hle hsame =>
      have hold : v.Voted p b s c :=
        hop.old_vote hvote hlt (by rw [hop.here', hsame]; exact Std.le_refl _)
      obtain ⟨-, -, hrec⟩ := hv.voted p b s c hold
      have hbounded := (ho.tidy p hop.member).bounded
      rw [hop.here] at hrec hbounded
      obtain ⟨candidate', hsent⟩ := hop.heard _ hi
      obtain ⟨j, hprepare⟩ := ho.broadcast_prepare hsent
      obtain ⟨howner, -, hstart⟩ := h.opened _ _ _ _ hprepare
      have hcand' : candidate' = q := by
        rw [hcand, Option.some_inj] at howner
        exact howner.symm
      subst hcand'
      by_cases hs₀ : s < m₀.start
      · exact Or.inl (Std.lt_of_lt_of_le hs₀ (Std.le_trans hstart hcursor))
      · by_cases hs₁ : s < Slot.first
        · exact Or.inl (Std.lt_of_lt_of_le (first_le ho (ho.member _ _ _ hprepare) hs₁) hcursor)
        · have ⟨e, he, _⟩ := hrec
          have hmax := Log.max_first_le (Std.not_lt.mp hs₀) (Std.not_lt.mp hs₁)
          exact Or.inr (hrec.promised hmax (hbounded s e he))

theorem backed_hop (h : Backing spec v) (ho : Orderly spec v) (hv : Voting v)
    (hop : View.Hop v v' id input before t t') (howner : t'.ballot.owner = some id) :
    ∀ r ∈ t'.promises.voters, r ∈ v.members ∧ t'.ballot ≤ (v'.replica r).ballot ∧
      ∀ b s c, v'.Voted r b s c → b < t'.ballot → t'.log.Recalls s b c := by
  have hid := ho.id id hop.member
  have hknown := ho.known id hop.member
  have hbacked := h.backed id hop.member
  have hgrows := ho.grows hop id
  rw [hop.here] at hid hknown hbacked hgrows
  rw [hop.here'] at hgrows
  -- A replica that was counted before, while the ballot stays.
  have hsame : t'.ballot = t.ballot → ∀ r ∈ t.promises.voters,
      r ∈ v.members ∧ t'.ballot ≤ (v'.replica r).ballot ∧
      ∀ b s c, v'.Voted r b s c → b < t'.ballot → t'.log.Recalls s b c := by
    intro hb r hr
    obtain ⟨hmem, hle, hrec⟩ := hbacked (hb ▸ howner) r hr
    have hle' : t'.ballot ≤ (v'.replica r).ballot := by
      rw [hb]
      exact Std.le_trans hle (hop.ballot_le r)
    refine ⟨hmem, hle', fun b s c hvote hlt => ?_⟩
    exact (hrec b s c (hop.old_vote hvote hlt hle') (hb ▸ hlt)).grows hgrows
  rcases hop.move.promises_cases with ⟨hp, hb⟩ | ⟨hp, hlog, -, hlt, -, -⟩ |
    ⟨m, hi, hp, -, hb, hm, -, -, hj⟩
  · rw [hp]
    rcases hb with hb | ⟨m, hi, hm, hb, hother⟩
    · exact hsame hb
    · -- A ballot of its own that is higher cannot come from elsewhere.
      exfalso
      rw [hb] at howner
      obtain ⟨-, hle⟩ := ho.heard hop hi hm id howner
      rw [hop.here] at hle
      rcases hother with hlt | hne
      · exact absurd (Std.lt_of_lt_of_le hlt hle) Std.lt_irrefl
      · exact hne (howner.trans (congrArg some hid.symm))
  · intro r hr
    rw [hp, Quorum.mem_ack] at hr
    have hrid : r = id := by
      rcases hr with hr | rfl
      · cases hr
      · exact hid
    subst hrid
    refine ⟨hop.member, by rw [hop.here']; exact Std.le_refl _, fun b s c hvote _ => ?_⟩
    obtain ⟨-, -, hrec⟩ := hv.voted_hop ho hop r b s c hvote
    rw [hop.here'] at hrec
    exact hrec
  · intro r hr
    rw [hp, Quorum.mem_ack] at hr
    rcases hr with hr | rfl
    · exact hsame hb r hr
    · obtain ⟨p, hs⟩ := hop.heard _ hi
      obtain ⟨hsender, hle, -⟩ := ho.promise p id m hs
      obtain ⟨i, hd⟩ := ho.send_promise hs
      subst hsender
      have hle' : t'.ballot ≤ (v'.replica m.sender).ballot := by
        rw [hb, ← hm]
        exact Std.le_trans hle (hop.ballot_le _)
      refine ⟨ho.member _ _ _ hd, hle', fun b s c hvote hlt => ?_⟩
      refine recalls_of_promise h ho hv hop.member hop.here hs hj
        (hop.old_vote hvote hlt hle') ?_
      rw [hm, ← hb]
      exact hlt

/-- A quorum that makes a request safe keeps it safe: its members vote under their own ballots. -/
theorem safeAt_hop (hop : View.Hop v v' id input before t t') {b : Ballot} {s : Slot} {c : Command}
    (h : v.SafeAt spec b s c) : v'.SafeAt spec b s c := by
  obtain ⟨voters, hdistinct, hq, hmem, hlast⟩ := h
  have hmem' : ∀ r ∈ voters, r ∈ v'.members ∧ b ≤ (v'.replica r).ballot := by
    intro r hr
    obtain ⟨hm, hle⟩ := hmem r hr
    exact ⟨hop.members ▸ hm, Std.le_trans hle (hop.ballot_le r)⟩
  refine ⟨voters, hdistinct, hq, hmem', ?_⟩
  rcases hlast with hnone | ⟨b₀, hlt, hasked, hlast⟩
  · refine Or.inl fun r hr b₁ c₁ hvote => Ballot.not_lt.mp fun hlt => ?_
    have hold := hnone r hr b₁ c₁ (hop.old_vote hvote hlt (hmem' r hr).2)
    exact absurd (Std.lt_of_lt_of_le hlt hold) Std.lt_irrefl
  · exact Or.inr ⟨b₀, hlt, hop.asked hasked, fun r hr b₁ c₁ hvote hlt =>
      hlast r hr b₁ c₁ (hop.old_vote hvote hlt (hmem' r hr).2) hlt⟩

/-- What a leader asks for is safe: it asks for what its slot holds, or for anything where it holds
nothing, and its log recalls every vote of its quorum. -/
theorem safeAt_of_emits (h : Backing spec v) (ho : Orderly spec v) (hv : Voting v)
    (hop : View.Hop v v' id input before t t') {b : Ballot} {s : Slot} {c : Command}
    (hs : Emits before input t t' (.broadcast (.accept ⟨b, s, c⟩))) : v.SafeAt spec b s c := by
  cases hs with
  | ask s e ha hb hold hnew hc heb =>
    have hid := ho.id id hop.member
    have hquorums := ho.quorums id hop.member
    have hlead := (ho.tidy id hop.member).lead
    have hbound := ho.bound id hop.member s
    have hentry := hv.entry id hop.member s
    have hbacked := h.backed id hop.member
    rw [hop.here] at hid hquorums hlead hbound hentry hbacked
    obtain ⟨howner, hq⟩ := hlead ha
    rw [hid] at howner
    rw [hb]
    have hvoters : ∀ r ∈ t.promises.voters, r ∈ v.members ∧ t.ballot ≤ (v.replica r).ballot :=
      fun r hr => ⟨(hbacked howner r hr).1, (hbacked howner r hr).2.1⟩
    have hsize : spec.phase1 ≤ t.promises.voters.length := by
      rw [hquorums] at hq
      exact of_decide_eq_true hq
    have hrecalls : ∀ r ∈ t.promises.voters, ∀ b₁ c₁, v.Voted r b₁ s c₁ → b₁ < t.ballot →
        t.log.Recalls s b₁ c₁ := fun r hr b₁ => (hbacked howner r hr).2.2 b₁ s
    cases hget : t.log.get? s with
    | none =>
      refine ⟨_, t.promises.distinct, hsize, hvoters, Or.inl fun r hr b₁ c₁ hvote => ?_⟩
      refine Ballot.not_lt.mp fun hlt => ?_
      obtain ⟨e₁, he₁, -⟩ := hrecalls r hr b₁ c₁ hvote hlt
      rw [hget] at he₁
      cases he₁
    | some e₀ =>
      obtain ⟨hc₀, hcmd⟩ := hold e₀ hget
      have hle := hbound e₀ hget hc₀
      have hasked := hentry e₀ hget hc₀
      rw [hcmd]
      by_cases heq : e₀.ballot = t.ballot
      · rw [← heq]
        exact h.safe e₀.ballot s e₀.command hasked
      · have hlt : e₀.ballot < t.ballot := by grind
        refine ⟨_, t.promises.distinct, hsize, hvoters,
          Or.inr ⟨e₀.ballot, hlt, hasked, fun r hr b₁ c₁ hvote hlt₁ => ?_⟩⟩
        obtain ⟨e₁, he₁, hv₁⟩ := hrecalls r hr b₁ c₁ hvote hlt₁
        rw [hget] at he₁
        cases he₁
        exact (hv₁.resolve_left (by simp [hc₀])).1

/-- **Every hop keeps what promises are good for.** -/
theorem hop (h : Backing spec v) (ho : Orderly spec v) (hv : Voting v)
    (hop : View.Hop v v' id input before t t') : Backing spec v' where
  opened := h.opened_hop ho hop
  covers := h.covers_hop ho hv hop
  backed p hp howner := by
    rw [hop.members] at hp ⊢
    by_cases heq : p = id
    · subst heq
      rw [hop.here'] at howner ⊢
      exact h.backed_hop ho hv hop howner
    · rw [hop.there p heq] at howner ⊢
      intro r hr
      obtain ⟨hmem, hle, hrec⟩ := h.backed p hp howner r hr
      have hle' := Std.le_trans hle (hop.ballot_le r)
      exact ⟨hmem, hle', fun b s c hvote hlt => hrec b s c (hop.old_vote hvote hlt hle') hlt⟩
  safe b s c hasked := by
    obtain ⟨p, i, hd⟩ := hasked
    rcases hop.emits hd trivial with hd | ⟨-, -, hs⟩
    · exact safeAt_hop hop (h.safe b s c ⟨p, i, hd⟩)
    · exact safeAt_hop hop (h.safeAt_of_emits ho hv hop hs)

end Backing

/-- What votes and promises of a run have to do with each other. -/
structure Sound (spec : QuorumSpec) (v : View ρ σ) : Prop where
  orderly : Orderly spec v
  voting : Voting v
  backing : Backing spec v

/-- **Promises are good for what they are in every run.** -/
theorem sound [RandomSource ρ] [StateMachine σ] (spec : QuorumSpec) :
    Network.Invariant (ρ := ρ) (σ := σ) spec (Sound spec) where
  fresh _ hf := ⟨Orderly.fresh hf, Voting.fresh hf, Backing.fresh hf⟩
  lead v h := (orderly spec).lead v h.orderly
  hop _ _ _ _ _ _ _ h hop :=
    ⟨h.orderly.hop hop, h.voting.hop h.orderly hop, h.backing.hop h.orderly h.voting hop⟩

end PaxosLog
