import Mathlib.Data.Finset.Max
import PaxosLog.Proofs.Leadership
import PaxosLog.Proofs.Network.Delivery
import PaxosLog.Proofs.Replica.Tally

/-!
# No stuck work

A cluster is quiet when no message is under way and no delay is still to pass. If an election was
ever started, a quiet cluster is settled: one replica leads under the highest ballot, everybody
follows it, all that it has in its log is chosen, and nobody holds a request that is not agreed on.

The argument follows the messages. The request for promises under the highest ballot reached
everybody, so everybody holds this ballot and answered with it; the answers came back, so its owner
was elected. What the owner proposed under it reached everybody, who voted and said so; the votes
came back, so all of it was chosen. A replica that does not own the highest ballot and still has
work waits for the end of a delay, and there is none.

**`settled_of_quiet`**. Whether the requests that were handed back have been submitted again does
not matter for it.
-/

namespace PaxosLog

variable {ρ σ : Type}

namespace Network

/-- No message is under way, and no delay is still to pass. -/
structure Quiet (net : Network ρ σ) : Prop where
  delivered : ∀ q ∈ net.members, underWay q net.past = []
  elapsed : ∀ q ∈ net.members, ¬ net.Possible q .backoffElapsed

instance (net : Network ρ σ) : Decidable net.Quiet :=
  -- over the list of members: an enumeration of all identities would not end
  have _ : Decidable (∀ q ∈ net.members, underWay q net.past = []) := List.decidableBAll _ _
  have _ : Decidable (∀ q ∈ net.members, ¬ net.Possible q .backoffElapsed) :=
    List.decidableBAll _ _
  decidable_of_iff ((∀ q ∈ net.members, underWay q net.past = []) ∧
    ∀ q ∈ net.members, ¬ net.Possible q .backoffElapsed)
    ⟨fun ⟨hd, he⟩ => ⟨hd, he⟩, fun ⟨hd, he⟩ => ⟨hd, he⟩⟩

/-- Replica `p` leads everybody, and nothing is left to do. -/
structure Settled (net : Network ρ σ) (p : ReplicaId) : Prop where
  owner : (net.replica p).ballot.owner = some p
  /-- The ballot of the leader was opened, and no higher one was. -/
  opened : (net.replica p).ballot ∈ net.opened
  highest : ∀ b ∈ net.opened, b ≤ (net.replica p).ballot
  followed : ∀ q ∈ net.members, (net.replica q).ballot = (net.replica p).ballot
  alone : ∀ q ∈ net.members, (net.replica q).active = true ↔ q = p
  /-- The leader knows everything in its log to be chosen. -/
  chosen : ∀ s e, (net.replica p).log.get? s = some e → e.isCommitted = true
  drained : ∀ q ∈ net.members, (net.replica q).pending = []
  /-- No request waits for a vote. -/
  unowned : ∀ q ∈ net.members, ∀ s e, (net.replica q).log.Open s e → e.request = none

variable [RandomSource ρ] [StateMachine σ] {spec : QuorumSpec} {net : Network ρ σ}

/-! ## Messages of a quiet cluster -/

/-- In a quiet cluster every message was delivered in a step that came later. -/
theorem Quiet.delivery (hquiet : net.Quiet) (hr : Reachable spec net) {o : Occurrence ρ σ}
    (ho : o ∈ net.past) {q : ReplicaId} (hq : q ∈ net.members) {m : Message} (hs : o.Sends q m) :
    ∃ d ∈ net.past, d.id = q ∧ d.input = .message m ∧
      ∃ net₁ : Network ρ σ, Taken spec net₁ d ∧ o ∈ net₁.past ∧ Steps (net₁.record d) net := by
  obtain ⟨later, earlier, hpast⟩ := List.append_of_mem ho
  have hsent : m ∈ underWay q (o :: earlier) :=
    List.mem_append_left _ (Occurrence.mem_messagesTo.mpr hs)
  have hgone : m ∉ underWay q (later ++ o :: earlier) := by
    rw [← hpast, hquiet.delivered q hq]
    exact List.not_mem_nil
  obtain ⟨newer, d, older, rfl, hid, hi⟩ := delivered_of_underWay hsent hgone
  rw [List.append_assoc, List.cons_append] at hpast
  obtain ⟨net₁, htaken, hpast₁, hsteps⟩ := hr.split hpast
  refine ⟨d, ?_, hid, hi, net₁, htaken, ?_, hsteps⟩
  · rw [hpast]
    exact List.mem_append_right _ List.mem_cons_self
  · rw [hpast₁]
    exact List.mem_append_right _ List.mem_cons_self

/-- In a quiet cluster nobody waits for the end of a delay. -/
theorem Quiet.not_inFlight (hquiet : net.Quiet) (hr : Reachable spec net) {q : ReplicaId}
    (hq : q ∈ net.members) : (net.replica q).backoff.inFlight = false := by
  have hdelays := hr.delays q hq
  have helapsed := hquiet.elapsed q hq
  rw [possible_backoffElapsed] at helapsed
  cases hflight : (net.replica q).backoff.inFlight with
  | false => rfl
  | true =>
    rw [hflight, Bool.toNat_true] at hdelays
    omega

/-! ## Everybody follows -/

omit [RandomSource ρ] [StateMachine σ] in
/-- Some ballot is the highest. -/
theorem exists_highest (h : net.opened ≠ []) :
    ∃ b ∈ net.opened, ∀ b' ∈ net.opened, b' ≤ b := by
  have hne : net.opened.toFinset.Nonempty := List.toFinset_nonempty_iff _ |>.mpr h
  obtain ⟨b, hb, hmax⟩ := net.opened.toFinset.exists_max_image Ballot.rank hne
  refine ⟨b, List.mem_toFinset.mp hb, fun b' hb' => ?_⟩
  exact Ballot.le_iff_rank_le.mpr (hmax b' (List.mem_toFinset.mpr hb'))

/-- Who opened a ballot. -/
theorem Reachable.opener (hr : Reachable spec net) {b : Ballot} (hb : b ∈ net.opened) :
    ∃ o ∈ net.past, ∃ k, .broadcast (.prepare ⟨b, k⟩) ∈ o.effects ∧ o.id ∈ net.members ∧
      b.owner = some o.id ∧ b ≤ (net.replica o.id).ballot := by
  obtain ⟨p, i, k, hd⟩ := mem_opened.mp hb
  have hsound := hr.view (sound spec)
  have hmember := hsound.orderly.member p i _ hd
  obtain ⟨howner, hle, -⟩ := hsound.backing.opened p i b k hd
  obtain ⟨o, ho, rfl, -, hx⟩ := hd
  exact ⟨o, ho, k, hx, hmember, howner, hle⟩

/-- **Everybody holds the highest ballot.** -/
theorem Quiet.ballot_eq (hquiet : net.Quiet) (hr : Reachable spec net) {b : Ballot}
    (hb : b ∈ net.opened) (hmax : ∀ b' ∈ net.opened, b' ≤ b) {q : ReplicaId}
    (hq : q ∈ net.members) : (net.replica q).ballot = b := by
  obtain ⟨o, ho, k, hx, -, howner, hle⟩ := hr.opener hb
  have hreached : b ≤ (net.replica q).ballot := by
    by_cases hqo : q = o.id
    · exact hqo ▸ hle
    · have hs : o.Sends q (.prepare ⟨b, k⟩) := .inr ⟨hqo, hx⟩
      obtain ⟨d, -, rfl, hi, net₁, htaken, -, hsteps⟩ := hquiet.delivery hr ho hq hs
      obtain ⟨now, hstep⟩ := htaken.step
      rw [hi] at hstep
      have hafter := (promised_of_step howner hstep).1
      rw [← net₁.replica_record_self d] at hafter
      exact Std.le_trans hafter (hsteps.ballot_le htaken.next d.id)
  rcases (hr.view (heralded spec)).2.held q hq with hzero | ⟨p, i, k', hd⟩
  · change (net.replica q).ballot = .zero at hzero
    rw [hzero] at hreached ⊢
    exact Std.le_antisymm (Ballot.zero_le b) hreached
  · exact Std.le_antisymm (hmax _ (mem_opened.mpr ⟨p, i, k', hd⟩)) hreached

/-! ## The owner of the highest ballot leads -/

/-- An answer came back to the owner of the last ballot while the owner held this ballot. -/
theorem Quiet.answered (hquiet : net.Quiet) (hr : Reachable spec net) {d : Occurrence ρ σ}
    (hd : d ∈ net.past) {p : ReplicaId} (hp : p ∈ net.members) {m : Message}
    (hx : .send p m ∈ d.effects) (hm : ∀ c, m ≠ .commit c) (howner : m.ballot.owner = some p)
    (hb : (net.replica p).ballot = m.ballot) :
    ∃ (h : Occurrence ρ σ) (net₂ : Network ρ σ), Taken spec net₂ h ∧ d ∈ net₂.past ∧ h.id = p ∧
      h.input = .message m ∧ Steps (net₂.record h) net ∧ h.before.ballot = m.ballot ∧
      h.after.ballot = m.ballot := by
  obtain ⟨h, -, rfl, hi, net₂, htaken, hpast, hsteps⟩ := hquiet.delivery hr hd hp (.inl hx)
  obtain ⟨q, hs⟩ := htaken.heard hi
  have hknown := (htaken.sound.orderly.carried q h.id m hs hm h.id howner).2
  change m.ballot ≤ (net₂.replica h.id).ballot at hknown
  rw [← htaken.before] at hknown
  have hlast := hsteps.ballot_le htaken.next h.id
  rw [net₂.replica_record_self, hb] at hlast
  exact ⟨h, net₂, htaken, hpast, rfl, hi, hsteps,
    Std.le_antisymm (Std.le_trans htaken.ballot_le hlast) hknown,
    Std.le_antisymm hlast (Std.le_trans hknown htaken.ballot_le)⟩

/-- Every other member promised. -/
theorem Quiet.promise (hquiet : net.Quiet) (hr : Reachable spec net) {b : Ballot}
    {o : Occurrence ρ σ} (ho : o ∈ net.past) {k : Slot}
    (hx : .broadcast (.prepare ⟨b, k⟩) ∈ o.effects) (howner : b.owner = some o.id)
    {r : ReplicaId} (hrm : r ∈ net.members) (hne : r ≠ o.id) (hb : (net.replica r).ballot = b) :
    ∃ d ∈ net.past, ∃ log, .send o.id (.promise ⟨b, r, log⟩) ∈ d.effects := by
  obtain ⟨d, hd, rfl, hi, net₁, htaken, -, hsteps⟩ :=
    hquiet.delivery hr ho hrm (.inr ⟨hne, hx⟩ : o.Sends r (.prepare ⟨b, k⟩))
  obtain ⟨now, hstep⟩ := htaken.step
  rw [hi] at hstep
  obtain ⟨hle, hanswer⟩ := promised_of_step howner hstep
  have hlast := hsteps.ballot_le htaken.next d.id
  rw [net₁.replica_record_self, hb] at hlast
  have hsame : d.after.ballot = b := Std.le_antisymm hlast hle
  rw [hsame, htaken.after_orderly.1] at hanswer
  exact ⟨d, hd, _, hanswer⟩

/-- A candidate that handles a promise for its ballot counts it. -/
theorem Taken.counts_promise {net₂ : Network ρ σ} {h : Occurrence ρ σ} (htaken : Taken spec net₂ h)
    {m : Promise} (hi : h.input = .message (.promise m)) (ha : h.before.active = false)
    (hb : h.before.ballot = m.ballot) (howner : m.ballot.owner = some h.id) :
    m.sender ∈ h.after.promises.voters := by
  obtain ⟨now, hstep⟩ := htaken.step
  rw [hi] at hstep
  obtain ⟨t, ht, heq⟩ := map_eq_ok.mp hstep
  obtain ⟨hr, -⟩ := Prod.mk.inj heq
  rw [← hr]
  have howner' : h.before.ballot.owner = some h.before.id := by
    rw [hb, htaken.id_eq, howner]
  exact Turn.counted_onPromise (t := { h.before with now, effects := [] }) ha hb.symm howner' ht

/-- The promise of every other member came back to the candidate, which counted it unless it led
already. -/
theorem Quiet.promised (hquiet : net.Quiet) (hr : Reachable spec net) {b : Ballot}
    (hall : ∀ q ∈ net.members, (net.replica q).ballot = b) {o : Occurrence ρ σ} (ho : o ∈ net.past)
    {k : Slot} (hx : .broadcast (.prepare ⟨b, k⟩) ∈ o.effects) (hp : o.id ∈ net.members)
    (howner : b.owner = some o.id) {r : ReplicaId} (hrm : r ∈ net.members) (hne : r ≠ o.id) :
    (net.replica o.id).active = true ∨ r ∈ (net.replica o.id).promises.voters := by
  obtain ⟨d, hd, log, hanswer⟩ := hquiet.promise hr ho hx howner hrm hne (hall r hrm)
  obtain ⟨h, net₂, htaken, -, hid, hi, hsteps, hbefore, hafter⟩ :=
    hquiet.answered hr hd hp hanswer (by simp) howner (hall o.id hp)
  have hend : (net.replica o.id).ballot = ((net₂.record h).replica o.id).ballot := by
    rw [← hid, net₂.replica_record_self, hafter, hid]
    exact hall o.id hp
  cases hact : h.before.active with
  | true =>
    left
    have hkept := htaken.active (hafter.trans hbefore.symm) hact
    rw [← net₂.replica_record_self h, hid] at hkept
    exact hsteps.active htaken.next hend hkept
  | false =>
    right
    have hcounted := htaken.counts_promise hi hact hbefore (hid ▸ howner)
    rw [← net₂.replica_record_self h, hid] at hcounted
    exact hsteps.promises htaken.next hend hcounted

/-- All members together are enough for every purpose. -/
theorem Reachable.reached_of_all (hr : Reachable spec net) {p : ReplicaId} (hp : p ∈ net.members)
    {q : Quorum} (h : ∀ r ∈ net.members, r ∈ q.voters) :
    (net.replica p).quorums.phase1Reached q = true ∧
      (net.replica p).quorums.phase2Reached q = true := by
  have horderly := (hr.view (sound spec)).orderly
  have hquorums : (net.replica p).quorums = spec := horderly.quorums p hp
  have hdistinct : net.members.Nodup := horderly.distinct
  have hsize : spec.clusterSize = net.members.length := horderly.size
  have hle : spec.clusterSize ≤ q.size := hsize ▸ (hdistinct.subperm h).length_le
  rw [hquorums]
  exact ⟨decide_eq_true (Nat.le_trans spec.phase1_le hle),
    decide_eq_true (Nat.le_trans spec.phase2_le hle)⟩

/-- **The owner of the highest ballot leads.** -/
theorem Quiet.active (hquiet : net.Quiet) (hr : Reachable spec net) {b : Ballot}
    (hall : ∀ q ∈ net.members, (net.replica q).ballot = b) {o : Occurrence ρ σ} (ho : o ∈ net.past)
    {k : Slot} (hx : .broadcast (.prepare ⟨b, k⟩) ∈ o.effects) (hp : o.id ∈ net.members)
    (howner : b.owner = some o.id) : (net.replica o.id).active = true := by
  by_contra hinactive
  have hown : (net.replica o.id).ballot.owner = some o.id := by rw [hall o.id hp, howner]
  have hvoters : ∀ r ∈ net.members, r ∈ (net.replica o.id).promises.voters := by
    intro r hrm
    by_cases hne : r = o.id
    · rw [hne]
      exact (hr.election o.id hp hown).self
    · exact (hquiet.promised hr hall ho hx hp howner hrm hne).resolve_left hinactive
  have hid : (net.replica o.id).id = o.id := (hr.view (sound spec)).orderly.id o.id hp
  exact hinactive ((hr.dutiful o.id hp).elected (by rw [hown, hid])
    (hr.reached_of_all hp hvoters).1)

/-! ## All that the leader proposed is chosen -/

/-- Every other member voted for what the owner of its last ballot asked for. -/
theorem Quiet.vote (hquiet : net.Quiet) (hr : Reachable spec net) {b : Ballot} {s : Slot}
    {c : Command} {o : Occurrence ρ σ} (ho : o ∈ net.past)
    (hx : .broadcast (.accept ⟨b, s, c⟩) ∈ o.effects) (howner : b.owner = some o.id)
    {r : ReplicaId} (hrm : r ∈ net.members) (hne : r ≠ o.id) (hb : (net.replica r).ballot = b) :
    ∃ d ∈ net.past, d.id = r ∧ d.input = .message (.accept ⟨b, s, c⟩) ∧
      .send o.id (.accepted ⟨b, s, r⟩) ∈ d.effects := by
  obtain ⟨d, hd, rfl, hi, net₁, htaken, -, hsteps⟩ :=
    hquiet.delivery hr ho hrm (.inr ⟨hne, hx⟩ : o.Sends r (.accept ⟨b, s, c⟩))
  have hlast := hsteps.ballot_le htaken.next d.id
  rw [net₁.replica_record_self, hb] at hlast
  obtain ⟨now, hstep⟩ := htaken.step
  rw [hi] at hstep
  have hanswer := answer_of_step howner (Std.le_trans htaken.ballot_le hlast) hstep
  rw [htaken.id_eq] at hanswer
  exact ⟨d, hd, rfl, hi, hanswer⟩

/-- A leader that handles a vote under its ballot counts it, if the slot is not chosen. -/
theorem Taken.counts_vote {net₂ : Network ρ σ} {h : Occurrence ρ σ} (htaken : Taken spec net₂ h)
    {b : Ballot} {s : Slot} {r : ReplicaId} (hi : h.input = .message (.accepted ⟨b, s, r⟩))
    (hb : h.before.ballot = b) (howner : b.owner = some h.id) {e : LogEntry}
    (ho : h.before.log.Open s e) (heb : e.ballot = b) : h.after.log.Credits s b r := by
  obtain ⟨now, hstep⟩ := htaken.step
  rw [hi] at hstep
  obtain ⟨t, ht, heq⟩ := map_eq_ok.mp hstep
  obtain ⟨hr, -⟩ := Prod.mk.inj heq
  rw [← hr]
  have howner' : h.before.ballot.owner = some h.before.id := by
    rw [hb, htaken.id_eq, howner]
  have htally := Turn.tally_of_counted (t := { h.before with now, effects := [] })
    (m := ⟨b, s, r⟩) ho.entry ho.vote (heb.trans hb.symm) hb.symm howner' ht s
  rw [if_pos rfl] at htally
  obtain ⟨e', he', heb', -, hacks⟩ := Log.tally_eq_some.mp htally
  refine ⟨e', he', .inr (.inr ⟨heb'.trans heb, ?_⟩)⟩
  rw [hacks]
  exact Quorum.mem_ack.mpr (.inr rfl)

/-- The owner of a ballot asks for the votes under it. -/
theorem Reachable.asker_eq (hr : Reachable spec net) {p q : ReplicaId} {i : Input} {b : Ballot}
    {s : Slot} {c : Command} (hasked : net.view.did p i (.broadcast (.accept ⟨b, s, c⟩)))
    (howner : b.owner = some q) : p = q := by
  have hown := (hr.view (sound spec)).voting.owner p i b s c hasked
  rw [howner, Option.some_inj] at hown
  exact hown.symm

/-- When a vote comes back to the owner of its ballot, which still holds this ballot, the owner
leads, and it counts the vote at the slot unless the slot is chosen. -/
theorem Taken.credits {net₂ : Network ρ σ} {h : Occurrence ρ σ} (htaken : Taken spec net₂ h)
    {b : Ballot} {s : Slot} {c : Command} {r : ReplicaId}
    (hi : h.input = .message (.accepted ⟨b, s, r⟩)) (hb : h.before.ballot = b)
    (howner : b.owner = some h.id) (hvoted : net₂.view.Voted r b s c) :
    h.before.active = true ∧ h.after.log.Credits s b r := by
  have hsound := htaken.sound
  obtain ⟨p, i, hasked⟩ := (hsound.voting.voted r b s c hvoted).2.1
  obtain rfl := htaken.reachable.asker_eq hasked howner
  have hlead := (htaken.reachable.view (heralded spec)).2.leads h.id i b s c hasked
  obtain ⟨-, -, e, he, hrecall⟩ := hsound.voting.voted h.id b s c (.inl ⟨i, hasked⟩)
  have hbound := hsound.orderly.bound h.id htaken.member s e he
  change (net₂.replica h.id).ballot = b → (net₂.replica h.id).active = true at hlead
  change (net₂.replica h.id).log.get? s = some e at he
  change e.isCommitted = false → e.ballot ≤ (net₂.replica h.id).ballot at hbound
  have hkept := htaken.steps.still_chosen htaken.reachable he
  rw [net₂.replica_record_self] at hkept
  rw [← htaken.before] at hlead he hbound
  refine ⟨hlead hb, ?_⟩
  cases hc : e.isCommitted with
  | true =>
    obtain ⟨e', he', hc', -⟩ := hkept hc
    exact ⟨e', he', .inl hc'⟩
  | false =>
    -- what it proposed under `b` is still there, for it holds no higher ballot
    have hge : b ≤ e.ballot := (hrecall.resolve_left (by simp [hc])).1
    exact htaken.counts_vote hi hb howner ⟨he, hc⟩ (Std.le_antisymm (hb ▸ hbound hc) hge)

/-- The vote of every other member came back to the leader, which counts it at the slot unless the
slot is chosen. -/
theorem Quiet.credited (hquiet : net.Quiet) (hr : Reachable spec net) {b : Ballot}
    (hall : ∀ q ∈ net.members, (net.replica q).ballot = b) {s : Slot} {c : Command}
    {o : Occurrence ρ σ} (ho : o ∈ net.past) (hx : .broadcast (.accept ⟨b, s, c⟩) ∈ o.effects)
    (hp : o.id ∈ net.members) (howner : b.owner = some o.id) {r : ReplicaId}
    (hrm : r ∈ net.members) (hne : r ≠ o.id) : (net.replica o.id).log.Credits s b r := by
  obtain ⟨d, hd, hdr, hdi, hanswer⟩ := hquiet.vote hr ho hx howner hrm hne (hall r hrm)
  obtain ⟨h, net₂, htaken, hpast, hid, hi, hsteps, hbefore, hafter⟩ :=
    hquiet.answered hr hd hp hanswer (by simp) howner (hall o.id hp)
  have hvoted : net₂.view.Voted r b s c := .inr ⟨o.id, d, hpast, hdr, hdi, hanswer⟩
  obtain ⟨hlead, hcredits⟩ := htaken.credits hi hbefore (hid ▸ howner) hvoted
  have hactive := htaken.active (hafter.trans hbefore.symm) hlead
  have hend : (net.replica o.id).ballot = ((net₂.record h).replica o.id).ballot := by
    rw [← hid, net₂.replica_record_self, hafter, hid]
    exact hall o.id hp
  rw [← net₂.replica_record_self h, hid] at hactive hcredits
  exact hsteps.credits htaken.next hend hactive hcredits

/-- **All that the leader has in its log is chosen.** -/
theorem Quiet.chosen (hquiet : net.Quiet) (hr : Reachable spec net) {b : Ballot}
    (hall : ∀ q ∈ net.members, (net.replica q).ballot = b) {p : ReplicaId} (hp : p ∈ net.members)
    (hactive : (net.replica p).active = true) {s : Slot} {e : LogEntry}
    (he : (net.replica p).log.get? s = some e) : e.isCommitted = true := by
  rw [← Bool.not_eq_false]
  intro hc
  have hsound := hr.view (sound spec)
  have hid : (net.replica p).id = p := hsound.orderly.id p hp
  have hown : (net.replica p).ballot.owner = some (net.replica p).id :=
    ((hsound.orderly.tidy p hp).lead hactive).1
  have hawaits := (hr.dutiful p hp).awaiting hactive s e ⟨he, hc⟩
  have heb : e.ballot = b := hawaits.ballot.trans (hall p hp)
  rw [hall p hp, hid] at hown
  obtain ⟨p', i, hasked⟩ := hsound.voting.entry p hp s e he hc
  rw [heb] at hasked
  have hasker := hr.asker_eq hasked hown
  obtain ⟨o, ho, rfl, -, hx⟩ := hasked
  subst hasker
  have hvoters : ∀ r ∈ net.members, r ∈ e.acks.voters := by
    intro r hrm
    by_cases hne : r = o.id
    · rw [hne, ← hid]
      exact hawaits.self
    · obtain ⟨e', he', hcredits⟩ := hquiet.credited hr hall ho hx hp hown hrm hne
      rw [he, Option.some_inj] at he'
      subst he'
      rcases hcredits with hchosen | hlt | ⟨-, hr⟩
      · exact absurd (hc.symm.trans hchosen) (by simp)
      · rw [heb] at hlt
        exact absurd hlt Std.lt_irrefl
      · exact hr
  have hreached := (hr.reached_of_all hp hvoters).2
  exact absurd (hawaits.few.symm.trans hreached) (by simp)

/-! ## Nobody is left with work -/

omit [RandomSource ρ] [StateMachine σ] in
/-- A replica without outstanding work has an empty queue, and no vote of its log owns a request. -/
theorem idle_of_not_outstanding {r : Replica ρ σ} (ht : Tidy r)
    (h : r.hasOutstandingWork = false) :
    r.pending = [] ∧ ∀ s e, r.log.Open s e → e.request = none := by
  have hnone : ¬ (r.pending ≠ [] ∨ r.log.hasOwnedUncommitted = true) := by
    rw [← hasOutstandingWork_iff, h]
    simp
  obtain ⟨hpending, hlog⟩ := not_or.mp hnone
  refine ⟨not_not.mp hpending, fun s e ho => ?_⟩
  by_contra hrequest
  exact hlog (ht.hasOwnedUncommitted_iff.mpr ⟨s, e, ho, hrequest⟩)

/-- **A follower has no work left**: it would wait for the end of a delay. -/
theorem Quiet.follower (hquiet : net.Quiet) (hr : Reachable spec net) {q : ReplicaId}
    (hq : q ∈ net.members) (hforeign : (net.replica q).ballot.owner ≠ some q) :
    (net.replica q).hasOutstandingWork = false := by
  rw [← Bool.not_eq_true]
  intro hwork
  have hid : (net.replica q).id = q := (hr.view (sound spec)).orderly.id q hq
  rcases (hr.rested hq).armed hwork with hown | hflight
  · exact hforeign (hown.trans (congrArg some hid))
  · exact absurd ((hquiet.not_inFlight hr hq).symm.trans hflight) (by simp)

/-- **No stuck work.** In every run of a cluster of any size, with any accepted quorums, in which no
message is under way and no delay is still to pass, if an election was ever started: everybody holds
the highest ballot that was opened, its owner leads and nobody else does, the log of the leader
holds chosen entries only, no queue holds a request, and no vote owns one. -/
theorem settled_of_quiet (hr : Reachable spec net) (hquiet : net.Quiet)
    (hopened : net.opened ≠ []) : ∃ p ∈ net.members, net.Settled p := by
  obtain ⟨b, hb, hmax⟩ := exists_highest hopened
  have hall : ∀ q ∈ net.members, (net.replica q).ballot = b :=
    fun q hq => hquiet.ballot_eq hr hb hmax hq
  obtain ⟨o, ho, k, hx, hp, howner, -⟩ := hr.opener hb
  have hactive := hquiet.active hr hall ho hx hp howner
  have horderly := (hr.view (sound spec)).orderly
  have hforeign : ∀ q ∈ net.members, q ≠ o.id → (net.replica q).ballot.owner ≠ some q := by
    intro q hq hne hown
    rw [hall q hq, howner, Option.some_inj] at hown
    exact hne hown.symm
  have hchosen : ∀ s e, (net.replica o.id).log.get? s = some e → e.isCommitted = true :=
    fun s e he => hquiet.chosen hr hall hp hactive he
  have hidle : ∀ q ∈ net.members, q ≠ o.id → (net.replica q).pending = [] ∧
      ∀ s e, (net.replica q).log.Open s e → e.request = none := fun q hq hne =>
    idle_of_not_outstanding (horderly.tidy q hq) (hquiet.follower hr hq (hforeign q hq hne))
  refine ⟨o.id, hp, ?_⟩
  rw [← hall o.id hp] at howner hb hmax hall
  refine ⟨howner, hb, hmax, hall, fun q hq => ⟨fun hact => ?_, fun hqo => hqo ▸ hactive⟩, hchosen,
    fun q hq => ?_, fun q hq s e hopen => ?_⟩
  · by_contra hne
    have hid : (net.replica q).id = q := horderly.id q hq
    exact hforeign q hq hne (((horderly.tidy q hq).lead hact).1.trans (congrArg some hid))
  · by_cases hqo : q = o.id
    · rw [hqo]
      exact (hr.rested hp).drained hactive
    · exact (hidle q hq hqo).1
  · by_cases hqo : q = o.id
    · rw [hqo] at hopen
      exact absurd (hopen.vote.symm.trans (hchosen s e hopen.entry)) (by simp)
    · exact (hidle q hq hqo).2 s e hopen

/-- Replicas 1 and 2 take a request each and compete. Replica 2 wins; replica 1 follows it, waits,
starts another election and wins. -/
def contest : List (ReplicaId × Input) :=
  [(1, .request ⟨0, [65]⟩), (2, .request ⟨1, [66]⟩),
    (1, .message (.prepare ⟨⟨1, some 2⟩, 1⟩)), (2, .message (.prepare ⟨⟨1, some 1⟩, 1⟩)),
    (3, .message (.prepare ⟨⟨1, some 2⟩, 1⟩)), (3, .message (.prepare ⟨⟨1, some 1⟩, 1⟩)),
    (1, .message (.promise ⟨⟨1, some 2⟩, 2, ∅⟩)), (1, .message (.promise ⟨⟨1, some 2⟩, 3, ∅⟩)),
    (2, .message (.promise ⟨⟨1, some 2⟩, 1, ∅⟩)), (2, .message (.promise ⟨⟨1, some 2⟩, 3, ∅⟩)),
    (1, .message (.accept ⟨⟨1, some 2⟩, 1, .client [66]⟩)),
    (3, .message (.accept ⟨⟨1, some 2⟩, 1, .client [66]⟩)),
    (2, .message (.accepted ⟨⟨1, some 2⟩, 1, 1⟩)), (2, .message (.accepted ⟨⟨1, some 2⟩, 1, 3⟩)),
    (1, .message (.commit ⟨⟨1, some 2⟩, 1, .client [66]⟩)),
    (3, .message (.commit ⟨⟨1, some 2⟩, 1, .client [66]⟩)),
    (1, .backoffElapsed),
    (2, .message (.prepare ⟨⟨2, some 1⟩, 2⟩)), (3, .message (.prepare ⟨⟨2, some 1⟩, 2⟩)),
    (1, .message (.promise ⟨⟨2, some 1⟩, 2, ∅⟩)), (1, .message (.promise ⟨⟨2, some 1⟩, 3, ∅⟩)),
    (2, .message (.accept ⟨⟨2, some 1⟩, 2, .client [65]⟩)),
    (3, .message (.accept ⟨⟨2, some 1⟩, 2, .client [65]⟩)),
    (1, .message (.accepted ⟨⟨2, some 1⟩, 2, 2⟩)), (1, .message (.accepted ⟨⟨2, some 1⟩, 2, 3⟩)),
    (2, .message (.commit ⟨⟨2, some 1⟩, 2, .client [65]⟩)),
    (3, .message (.commit ⟨⟨2, some 1⟩, 2, .client [65]⟩))]

/-- At the end of `contest` the cluster is quiet, and settled. -/
theorem settled_after_contest : ∃ net : Network Script Journal, Reachable .three net ∧
    net.Quiet ∧ net.opened ≠ [] ∧ ∃ p ∈ net.members, net.Settled p := by
  obtain ⟨net, hs, hquiet, hopened⟩ := trio.exists_of_play contest
    (fun net => net.Quiet ∧ net.opened ≠ []) (by decide +kernel)
  have hr : Reachable .three net := ⟨trio, fresh_trio, hs⟩
  exact ⟨net, hr, hquiet, hopened, settled_of_quiet hr hquiet hopened⟩

end Network

end PaxosLog
