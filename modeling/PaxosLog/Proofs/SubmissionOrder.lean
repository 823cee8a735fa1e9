import PaxosLog.Proofs.Conservation
import PaxosLog.Proofs.Replica.Placements

/-!
# Requests get slots in submission order

A request reaches the log in one of two ways: a leader proposes it when it comes, and any other
replica keeps it in a queue that it drains when it is elected. Meanwhile the highest slot jumps, as
peers tell of slots of their own. No request overtakes another one for all that, because a leader
has no queue, a queue is drained in order, and every request goes above all slots known.

`Booked` says so of any moment in a step, `Books` of a stretch of a step: what proposes nothing
leaves requests in order (`Books.of_carries`), and a proposal takes the first one in hand
(`Turn.books_propose`). `Replica.Noting` is a run with the record of all slots given.

**`slots_in_submission_order`**: the slots rise, the requests are those submitted, in order, and so
are the replies.
-/

namespace PaxosLog

variable {ρ σ : Type}

/-- The requests submitted, the first of which were given the slots of `placed`. -/
structure Booked (submitted hand : List ClientRequest) (placed : List Placement)
    (effects : List Effect) (r : Replica ρ σ) : Prop where
  order : submitted = placed.map Placement.request ++ r.pending ++ hand
  rising : (placed.map Placement.slot).Pairwise (· < ·)
  below : ∀ p ∈ placed, p.slot ≤ r.log.highestSlot
  free : ∀ p ∈ placed, p.log.get? p.slot = none
  owned : ∀ s e q, r.log.get? s = some e → e.request = some q →
    ∃ p ∈ placed, p.slot = s ∧ p.request = q
  answered : ∀ q a, (q, a) ∈ answers effects → ∃ p ∈ placed, p.slot = a.slot ∧ p.request = q

variable [RandomSource ρ] [StateMachine σ]
  {before : Replica ρ σ} {input : Input} {t t' : Turn ρ σ}

/-- A move that takes no request up gives none to an entry. -/
theorem Move.sheds (h : Move before input t t') (hstill : t.Still t') : t.log.Sheds t'.log := by
  cases h with
  | offer s command request ha hs hc =>
    intro u e q he hq
    simp only [Turn.emit, Log.get?_set, Log.get?_observe] at he
    split at he
    · rename_i hsu
      cases he
      have hnone : request = none :=
        hstill.log s (.proposal t.ballot command request t.id t.now) hs (by simp [Turn.emit])
      rw [hnone] at hq
      cases hq
    · exact ⟨e, he, hq⟩
  | offerAgain s e ha hs hc => exact Log.sheds_set hs (.inr rfl)
  | choose s e ho hs hc hb hq => exact Log.sheds_set hs (.inr rfl)
  | execute t' e hs hc h =>
    obtain ⟨_, _, _, -, rfl, -⟩ := Turn.executeEntry_eq_ok h
    exact Log.sheds_set hs (.inl rfl)
  | backOff t' h => rw [(backOff_same h).2.2.1]; exact t.log.sheds_refl
  | vote m proposer log displaced hi ho hb h => exact (Log.joined_vote h).sheds
  | report m log displaced hi ha hle ho h => exact (Log.merged_merge h).sheds
  | countPromise m log displaced hi hstart ha hm ho h => exact (Log.merged_merge h).sheds
  | countVote m e hi hstart hs hc hb hm ho => exact Log.sheds_set hs (.inr rfl)
  | learn m log displaced hi h0 h => exact (Log.joined_learn h).sheds
  | _ => exact t.log.sheds_refl

/-- What a move answers was owned by the entry at the slot of the reply. -/
theorem Move.answers_owned (h : Move before input t t') :
    ∃ out, t'.effects = t.effects ++ out ∧ ∀ q a, (q, a) ∈ answers out →
      ∃ e, t.log.get? a.slot = some e ∧ e.request = some q := by
  rcases h.outcome_cases with ⟨-, -, out, heff, hquiet⟩ | ⟨e, he, hc, hexec⟩
  · refine ⟨out, heff, fun q a hqa => ?_⟩
    rw [answers_of_not_isOutcome hquiet] at hqa
    cases hqa
  · obtain ⟨out, heff, hans⟩ := Turn.answers_executeEntry hexec
    refine ⟨out, heff, fun q a hqa => ?_⟩
    rcases hans with hnil | ⟨q', c, v, hreq, -, hans, -⟩
    · rw [hnil] at hqa; cases hqa
    · rw [hans, List.mem_singleton] at hqa
      cases hqa
      exact ⟨e, he, hreq⟩

namespace Booked

variable {submitted hand hand' : List ClientRequest} {placed : List Placement}
  {prior : List Effect}

/-- How many requests a replica still has to propose, in the middle of a step. -/
def weight (c : Turn ρ σ × List ClientRequest) : Nat := c.1.pending.length + c.2.length

/-- **Requests that are not proposed stay in order.** -/
theorem carry {c c' : Turn ρ σ × List ClientRequest} (h : Carry before input c c')
    (hweight : weight c' = weight c)
    (hb : Booked submitted c.2 placed (prior ++ c.1.effects) c.1.toReplica) :
    Booked submitted c'.2 placed (prior ++ c'.1.effects) c'.1.toReplica := by
  cases h with
  | enqueue t request hand hi ha => exact { hb with order := by rw [hb.order]; simp }
  | dequeue t hand ha => exact { hb with order := by rw [hb.order]; simp }
  | offer t s request hand ha hs hnext hqueue =>
    simp only [weight, Turn.emit, List.length_cons] at hweight
    omega
  | other t t' hand h hstill =>
    obtain ⟨out, heff, hout⟩ := h.answers_owned
    refine ⟨?_, hb.rising, fun p hp => ?_, hb.free, fun s e q he hq => ?_, fun q a hqa => ?_⟩
    · rw [hstill.pending]; exact hb.order
    · exact Std.le_trans (hb.below p hp) h.highestSlot_le
    · obtain ⟨e₀, he₀, hq₀⟩ := h.sheds hstill s e q he hq
      exact hb.owned s e₀ q he₀ hq₀
    · rw [heff, ← List.append_assoc, answers_append, List.mem_append] at hqa
      rcases hqa with hqa | hqa
      · exact hb.answered q a hqa
      · obtain ⟨e, he, hq⟩ := hout q a hqa
        exact hb.owned a.slot e q he hq

/-- No move adds to what is to be proposed. -/
theorem weight_le {c c' : Turn ρ σ × List ClientRequest} (h : Carry before input c c') :
    weight c' ≤ weight c := by
  cases h with
  | other t t' hand h hstill => simp [weight, hstill.pending]
  | _ => simp [weight, Turn.emit] <;> omega

/-- **Moves that propose no request keep them in order.** The first of them that proposed one
would make up for it by none of the others. -/
theorem carries {c c' : Turn ρ σ × List ClientRequest} (h : Carries before input c c')
    (hweight : weight c' = weight c)
    (hb : Booked submitted c.2 placed (prior ++ c.1.effects) c.1.toReplica) :
    Booked submitted c'.2 placed (prior ++ c'.1.effects) c'.1.toReplica := by
  suffices hall : weight c' ≤ weight c ∧ (weight c' = weight c →
      Booked submitted c'.2 placed (prior ++ c'.1.effects) c'.1.toReplica) from hall.2 hweight
  clear hweight
  induction h with
  | refl => exact ⟨Nat.le_refl _, fun _ => hb⟩
  | tail _ hcarry ih =>
    have hle := weight_le hcarry
    exact ⟨Nat.le_trans hle ih.1, fun hw => carry hcarry (by omega) (ih.2 (by omega))⟩

omit [RandomSource ρ] [StateMachine σ] in
/-- The proposal of a request at a slot above all others, when no other request is waiting. -/
theorem offer {s : Slot} {request : ClientRequest} (hqueue : t.pending = [])
    (hs : t.log.get? s = none) (hlt : t.log.highestSlot < s)
    (hb : Booked submitted (request :: hand) placed (prior ++ t.effects) t.toReplica) :
    Booked submitted hand (placed ++ [⟨s, request, t.log⟩])
      (prior ++ (Turn.emit { t with
          log := (t.log.observe s).set s <|
            .proposal t.ballot (.client request.command) (some request) t.id t.now }
        (.broadcast (.accept ⟨t.ballot, s, .client request.command⟩))).effects)
      { t.toReplica with
        log := (t.log.observe s).set s <|
          .proposal t.ballot (.client request.command) (some request) t.id t.now } where
  order := by rw [hb.order, hqueue]; simp
  rising := by
    rw [List.map_append, List.pairwise_append]
    refine ⟨hb.rising, by simp, fun u hu v hv => ?_⟩
    obtain ⟨p, hp, rfl⟩ := List.mem_map.mp hu
    obtain rfl : v = s := by simpa using hv
    exact Std.lt_of_le_of_lt (hb.below p hp) hlt
  below p hp := by
    obtain ⟨hle, hmem⟩ := t.log.le_highestSlot_observe s
    rw [Log.highestSlot_set]
    rcases List.mem_append.mp hp with hp | hp
    · exact Std.le_trans (hb.below p hp) hle
    · rw [List.mem_singleton.mp hp]
      exact hmem
  free p hp := by
    rcases List.mem_append.mp hp with hp | hp
    · exact hb.free p hp
    · rw [List.mem_singleton.mp hp]
      exact hs
  owned u e q he hq := by
    rw [Log.get?_set, Log.get?_observe] at he
    split at he
    · rename_i hsu
      cases he
      exact ⟨_, List.mem_append_right _ (List.mem_singleton_self _), hsu, Option.some_inj.mp hq⟩
    · obtain ⟨p, hp, hslot⟩ := hb.owned u e q he hq
      exact ⟨p, List.mem_append_left _ hp, hslot⟩
  answered q a hqa := by
    rw [Turn.emit_effects, ← List.append_assoc, answers_append] at hqa
    obtain ⟨p, hp, hslot⟩ := hb.answered q a (by simpa using hqa)
    exact ⟨p, List.mem_append_left _ hp, hslot⟩

end Booked

/-- From `t` to `t'` the slots of `placed` are given to requests, in order, and the hand changes
from `hand` to `hand'`. -/
def Books (t : Turn ρ σ) (hand : List ClientRequest) (placed : List Placement) (t' : Turn ρ σ)
    (hand' : List ClientRequest) : Prop :=
  ∀ submitted earlier prior, Booked submitted hand earlier (prior ++ t.effects) t.toReplica →
    Booked submitted hand' (earlier ++ placed) (prior ++ t'.effects) t'.toReplica

namespace Books

variable {t₁ : Turn ρ σ} {hand hand₁ hand' : List ClientRequest} {placed placed' : List Placement}

omit [RandomSource ρ] [StateMachine σ] in
theorem refl : Books t hand [] t hand := fun submitted earlier prior hb => by
  rwa [List.append_nil]

omit [RandomSource ρ] [StateMachine σ] in
theorem trans (h : Books t hand placed t₁ hand₁) (h' : Books t₁ hand₁ placed' t' hand') :
    Books t hand (placed ++ placed') t' hand' := fun submitted earlier prior hb => by
  rw [← List.append_assoc]
  exact h' submitted _ prior (h submitted earlier prior hb)

omit [RandomSource ρ] [StateMachine σ] in
/-- First something that gives no slot. -/
theorem head (h : Books t hand [] t₁ hand₁) (h' : Books t₁ hand₁ placed t' hand') :
    Books t hand placed t' hand' :=
  h.trans h'

omit [RandomSource ρ] [StateMachine σ] in
/-- Something that gives no slot at the end. -/
theorem tail (h : Books t hand placed t₁ hand₁) (h' : Books t₁ hand₁ [] t' hand') :
    Books t hand placed t' hand' := by
  simpa using h.trans h'

/-- Moves that propose no request. -/
theorem of_carries (h : Carries before input (t, hand) (t', hand'))
    (hweight : t'.pending.length + hand'.length = t.pending.length + hand.length) :
    Books t hand [] t' hand' := fun submitted earlier prior hb => by
  rw [List.append_nil]
  exact hb.carries h hweight

/-- A move that proposes no request. -/
theorem of_still (h : Move before input t t') (hstill : t.Still t') : Books t hand [] t' hand :=
  of_carries (.single (.other t t' hand h hstill)) (by rw [hstill.pending])

theorem of_move (h : Move before input t t') (hp : t'.pending = t.pending)
    (hlog : t'.log = t.log) : Books t hand [] t' hand :=
  of_still h ⟨hp, hlog ▸ t.log.addsUnowned_refl⟩

/-- The work of a learner and of a proposer without requests. -/
theorem of_works (h : Works before input [] t t') : Books t hand [] t' hand :=
  of_carries (h.carries hand) (by rw [h.pending])

end Books

namespace Turn

variable {hand : List ClientRequest} {placed : List Placement}

theorem books_executeReady (h : t.executeReady = .ok t') : Books t hand [] t' hand := by
  have hw : Works t.toReplica .elect [] t t' := works_executeReady h
  exact .of_works hw

/-! ## Proposing -/

/-- Counting the own vote, once votes were asked for. -/
theorem books_askForVotes {s : Slot} {command : Command} (ho : t.ballot.owner = some t.id)
    (hb : ∀ e, t.log.get? s = some e → e.isCommitted = false → e.ballot = t.ballot)
    (h : t.askForVotes s command = .ok t') :
    Books (t.emit (.broadcast (.accept ⟨t.ballot, s, command⟩))) hand [] t' hand := by
  have hw : Works t.toReplica .elect [] (t.emit (.broadcast (.accept ⟨t.ballot, s, command⟩))) t' :=
    works_countVotes ho hb h
  exact .of_works hw

/-- **A proposed request is given the next slot**, if no other one is waiting. -/
theorem books_propose {noted noted' : List Placement} {request : ClientRequest}
    (ho : t.ballot.owner = some t.id) (hqueue : t.pending = [])
    (h : proposeNoting (t, noted) request = .ok (t', noted')) :
    ∃ placed, noted' = noted ++ placed ∧ Books t (request :: hand) placed t' hand ∧
      t'.ballot.owner = some t'.id ∧ t'.pending = [] := by
  obtain ⟨t', h₁, h⟩ := bind_eq_ok.mp h
  obtain ⟨s, ha, hallocate, -, hs, hask⟩ := propose_eq_ok h₁
  obtain ⟨-, hlt, -⟩ := Log.allocate_eq_ok hallocate
  rw [hallocate] at h
  cases h
  have hw : Works t.toReplica .elect [request] t t' := works_propose ho (fun _ => .inr hqueue) h₁
  refine ⟨[⟨s, request, t.log⟩], rfl, ?_, hw.owner ho, hw.pending.trans hqueue⟩
  refine Books.tail (fun submitted earlier prior hb => hb.offer hqueue hs hlt)
    (books_askForVotes ho (fun e he _ => ?_) hask)
  rw [Log.get?_set, if_pos rfl] at he
  cases he
  rfl

theorem books_proposeAll {requests : List ClientRequest} {noted noted' : List Placement}
    (ho : t.ballot.owner = some t.id) (hqueue : t.pending = [])
    (h : requests.foldlM proposeNoting (t, noted) = .ok (t', noted')) :
    ∃ placed, noted' = noted ++ placed ∧ Books t (requests ++ hand) placed t' hand := by
  induction requests generalizing t noted with
  | nil => cases h; exact ⟨[], (List.append_nil _).symm, .refl⟩
  | cons request requests ih =>
    rw [List.foldlM_cons] at h
    obtain ⟨⟨t₁, noted₁⟩, h₁, h₂⟩ := bind_eq_ok.mp h
    obtain ⟨placed, rfl, hbooks, ho₁, hqueue₁⟩ := books_propose ho hqueue h₁
    obtain ⟨placed', rfl, hbooks'⟩ := ih ho₁ hqueue₁ h₂
    exact ⟨placed ++ placed', List.append_assoc _ _ _, hbooks.trans hbooks'⟩

/-! ## Elections -/

/-- **A new leader drains its queue in order.** -/
theorem books_takeOver (ha : t.active = false) (ho : t.ballot.owner = some t.id)
    (hq : t.quorums.phase1Reached t.promises = true) (h : t.takeOverNoting = .ok (t', placed)) :
    Books t hand placed t' hand := by
  unfold takeOverNoting at h
  obtain ⟨t₁, h₁, h⟩ := bind_eq_ok.mp h
  obtain ⟨⟨t₂, noted⟩, h₂, h⟩ := bind_eq_ok.mp h
  obtain ⟨t₃, h₃, h⟩ := bind_eq_ok.mp h
  cases h
  have hw₁ : Works t.toReplica .elect [] { t with active := true } t₁ :=
    works_reproposeFrom ha rfl ho (Nat.le_refl _) h₁
  have hlead : Move t.toReplica .elect t { t with active := true } := .lead ha ho hq
  have htake : Carry t.toReplica .elect (t₁, hand)
      ({ t₁ with pending := [] }, t₁.pending ++ hand) := .dequeue t₁ hand hw₁.active
  have htaken : Books t₁ hand [] { t₁ with pending := [] } (t₁.pending ++ hand) :=
    .of_carries (.single htake) (by simp)
  obtain ⟨placed, rfl, hbooks⟩ := books_proposeAll (t := { t₁ with pending := [] }) (hw₁.owner ho)
    rfl h₂
  have hled : Books t hand [] { t with active := true } hand := .of_move hlead rfl rfl
  exact (hled.head (.head (.of_works hw₁) (htaken.head hbooks))).tail (books_executeReady h₃)

theorem books_countPromises (ha : t.active = false) (ho : t.ballot.owner = some t.id)
    (h : t.countPromisesNoting = .ok (t', placed)) : Books t hand placed t' hand := by
  unfold countPromisesNoting at h
  split at h
  · rename_i hq
    exact books_takeOver ha ho hq h
  · cases h
    exact .refl

theorem books_elect (h : t.electNoting = .ok (t', placed)) : Books t hand placed t' hand := by
  unfold electNoting at h
  by_cases ha : t.active = true
  · rw [if_pos ha] at h
    cases h
    exact .refl
  · rw [if_neg ha] at h
    rw [Bool.not_eq_true] at ha
    obtain ⟨ballot, hn, h⟩ := bind_eq_ok.mp h
    have hopen : Move t.toReplica .elect t _ := .elect ballot rfl ha hn (by simp) rfl
    exact Books.head (.of_move hopen rfl rfl)
      (books_countPromises ha (Ballot.owner_of_next hn) h)

/-! ## Inputs -/

/-- **The request of an input joins the queue or is given a slot**, after all others. -/
theorem books_onRequest {request : ClientRequest} (hlead : t.active = true →
      t.ballot.owner = some t.id ∧ t.pending = [])
    (h : t.onRequestNoting request = .ok (t', placed)) :
    Books t (request :: hand) placed t' hand := by
  unfold onRequestNoting at h
  split at h
  · rename_i ha
    obtain ⟨ho, hqueue⟩ := hlead ha
    obtain ⟨placed, rfl, hbooks, -⟩ := books_propose ho hqueue h
    exact hbooks
  · rename_i ha
    rw [Bool.not_eq_true] at ha
    have hcarry : Carry t.toReplica (.request request) (t, request :: hand)
        ({ t with pending := t.pending ++ [request] }, hand) := .enqueue t request hand rfl ha
    have hqueued : Books t (request :: hand) [] { t with pending := t.pending ++ [request] } hand :=
      .of_carries (.single hcarry) (by simp; omega)
    simp only at h
    split at h
    · cases h
      exact hqueued
    · exact hqueued.head (books_elect h)

theorem books_onBackoffElapsed (h : t.onBackoffElapsedNoting = .ok (t', placed)) :
    Books t hand placed t' hand := by
  obtain ⟨⟨t₁, placed⟩, h₁, h⟩ := map_eq_ok.mp h
  cases h
  have hfired : Move t.toReplica .backoffElapsed t₁ { t₁ with backoff := t₁.backoff.fired } :=
    .fired rfl
  exact (books_elect h₁).tail (.of_move hfired rfl rfl)

theorem books_onPromise {m : Promise} (h : t.onPromiseNoting m = .ok (t', placed)) :
    Books t hand placed t' hand := by
  unfold onPromiseNoting at h
  by_cases hn : t.active = true ∨ m.ballot < t.ballot
  · rw [if_pos hn] at h
    cases h
    exact .refl
  rw [if_neg hn] at h
  obtain ⟨ha, hle⟩ := not_or.mp hn
  rw [Bool.not_eq_true] at ha
  rw [Ballot.not_lt] at hle
  obtain ⟨⟨log, displaced⟩, hmerge, h⟩ := bind_eq_ok.mp h
  have hunowned := (Log.merged_merge hmerge).addsUnowned
  simp only at h
  split at h
  · rename_i hlt
    obtain ⟨⟨t₁, noted⟩, h₁, h⟩ := bind_eq_ok.mp h
    obtain ⟨t₂, h₂, h⟩ := bind_eq_ok.mp h
    cases h
    obtain ⟨t₀, hback, heq⟩ := map_eq_ok.mp h₁
    cases heq
    have hreport : Move t.toReplica (.message (.promise m)) t _ :=
      .report m log displaced rfl ha hle (.inl hlt) hmerge
    rw [observeBallot_of_lt hlt] at hback
    have hdelay : Move t.toReplica (.message (.promise m)) _ t₁ :=
      .backOff t₁ hback ⟨_, rfl, hlt, .inr ⟨m, rfl⟩⟩
    obtain ⟨_, _, _, rfl, -⟩ := scheduleBackoff_eq_ok hback
    have hfolded : Books t hand [] { t.withLog log displaced with
        ballot := m.ballot, active := false } hand := by
      simpa [withLog, emitAll, ha] using Books.of_still hreport ⟨rfl, hunowned⟩
    exact hfolded.head (.head (.of_move hdelay rfl rfl) (books_executeReady h₂))
  · rename_i hge
    have hm : m.ballot = t.ballot := Std.le_antisymm (Ballot.not_lt.mp hge) hle
    split at h
    · rename_i ho
      rw [hm, Ballot.isOwnedBy_iff] at ho
      obtain ⟨⟨t₁, noted⟩, h₁, h⟩ := bind_eq_ok.mp h
      obtain ⟨t₂, h₂, h⟩ := bind_eq_ok.mp h
      cases h
      have hcount : Move t.toReplica (.message (.promise m)) t _ :=
        .countPromise m log displaced rfl rfl ha hm ho hmerge
      have hfolded : Books t hand [] _ hand := .of_still hcount ⟨rfl, hunowned⟩
      exact (hfolded.head (books_countPromises ha ho h₁)).tail (books_executeReady h₂)
    · rename_i ho
      rw [hm, Ballot.isOwnedBy_iff] at ho
      obtain ⟨⟨t₁, noted⟩, h₁, h⟩ := bind_eq_ok.mp h
      cases h₁
      obtain ⟨t₂, h₂, h⟩ := bind_eq_ok.mp h
      cases h
      have hreport : Move t.toReplica (.message (.promise m)) t _ :=
        .report m log displaced rfl ha hle (.inr (hm ▸ ho)) hmerge
      rw [hm] at hreport
      have hfolded : Books t hand [] _ hand := .of_still hreport ⟨rfl, hunowned⟩
      exact hfolded.head (books_executeReady h₂)

/-- The queue is left alone by every message but a promise. -/
theorem pending_onMessage {m : Message} (hm : ∀ p, m ≠ .promise p) (h : t.onMessage m = .ok t') :
    t'.pending = t.pending := by
  cases m with
  | prepare m =>
    change t.onPrepare m = .ok t' at h
    unfold onPrepare at h
    split at h
    · cases h; rfl
    · obtain ⟨t₁, h₁, h₂⟩ := bind_eq_ok.mp h
      cases h₂
      obtain ⟨_, _, _, _, rfl, -⟩ := follow_eq_ok h₁
      rfl
  | promise m => exact absurd rfl (hm m)
  | accept m =>
    cases onAccept_eq_ok h with
    | ignored h => rw [h]
    | refused proposer ho hlt h => rw [h]; rfl
    | voted proposer t₁ log displaced ho hle h₁ hvote h =>
      obtain ⟨_, _, _, _, rfl, -⟩ := follow_eq_ok h₁
      rw [h]
      rfl
  | accepted m =>
    cases onAccepted_eq_ok h with
    | ignored h => rw [h]
    | superseded hlt h =>
      obtain ⟨_, _, _, _, rfl, -⟩ := follow_eq_ok h
      rfl
    | counted e he hc hb hm ho h =>
      have hw : Works t.toReplica .elect [] _ t' := works_counted hb ho h
      exact hw.pending
  | commit m =>
    change t.onCommit m = .ok t' at h
    unfold onCommit at h
    split at h
    · cases h; rfl
    · obtain ⟨⟨log, displaced⟩, hlearn, h⟩ := bind_eq_ok.mp h
      have hw : Works t.toReplica .elect [] _ t' := works_executeReady h
      exact hw.pending

/-- A message that is no promise makes nobody a leader. -/
theorem books_onMessage {m : Message} (hm : ∀ p, m ≠ .promise p) (h : t.onMessage m = .ok t') :
    Books t hand [] t' hand := by
  have hcarries : Carries t.toReplica (.message m) (t, hand) (t', hand) := by
    cases m with
    | prepare m => exact carries_onPrepare rfl rfl h
    | promise m => exact absurd rfl (hm m)
    | accept m => exact carries_onAccept rfl rfl h
    | accepted m => exact carries_onAccepted rfl rfl h
    | commit m => exact carries_onCommit rfl h
  exact .of_carries hcarries (by rw [pending_onMessage hm h])

/-- **An input gives slots to requests in order.** -/
theorem books_onInput {input : Input} (hlead : t.active = true →
      t.ballot.owner = some t.id ∧ t.pending = [])
    (h : t.onInputNoting input = .ok (t', placed)) : Books t input.requests placed t' [] := by
  cases input with
  | request request => exact books_onRequest hlead h
  | elect => exact books_elect h
  | backoffElapsed => exact books_onBackoffElapsed h
  | message m =>
    cases m with
    | promise m => exact books_onPromise h
    | _ =>
      obtain ⟨t₁, h₁, heq⟩ := map_eq_ok.mp h
      cases heq
      exact books_onMessage (by simp) h₁

end Turn

/-! ## Runs with a record -/

/-- A run in which the slots that requests are given are noted down, in the order in which they
are. -/
inductive Replica.Noting (fresh : Replica ρ σ) :
    List Input → Replica ρ σ → List Effect → List Placement → Prop
  | start : Noting fresh [] fresh [] []
  | step {inputs : List Input} {r r' : Replica ρ σ} {effects out : List Effect}
      {placed more : List Placement} (h : Noting fresh inputs r effects placed) (now : Duration)
      (input : Input) (hs : r.stepNoting now input = .ok ((r', out), more)) :
      Noting fresh (inputs ++ [input]) r' (effects ++ out) (placed ++ more)

namespace Replica

variable {fresh r r' : Replica ρ σ} {inputs : List Input} {effects out : List Effect}
  {placed : List Placement}

theorem step_of_stepNoting {now : Duration} {input : Input}
    (h : r.stepNoting now input = .ok ((r', out), placed)) : r.step now input = .ok (r', out) := by
  rw [← forget_stepNoting, h, forget_ok]

theorem exists_stepNoting {now : Duration} {input : Input} (h : r.step now input = .ok (r', out)) :
    ∃ placed, r.stepNoting now input = .ok ((r', out), placed) := by
  rw [← forget_stepNoting] at h
  obtain ⟨⟨p, placed⟩, hp, rfl⟩ := map_eq_ok.mp h
  exact ⟨placed, hp⟩

theorem Noting.run (h : fresh.Noting inputs r effects placed) : fresh.Run inputs r effects := by
  induction h with
  | start => exact .start
  | step h now input hs ih => exact ih.step now input (step_of_stepNoting hs)

/-- Every run can be noted down. -/
theorem Run.exists_noting (h : fresh.Run inputs r effects) :
    ∃ placed, fresh.Noting inputs r effects placed := by
  induction h with
  | start => exact ⟨[], .start⟩
  | step h now input hs ih =>
    obtain ⟨placed, hnoting⟩ := ih
    obtain ⟨more, hmore⟩ := exists_stepNoting hs
    exact ⟨placed ++ more, hnoting.step now input hmore⟩

end Replica

namespace Booked

variable {fresh r : Replica ρ σ} {inputs : List Input} {effects : List Effect}
  {placed : List Placement}

omit [RandomSource ρ] [StateMachine σ] in
theorem start {id : ReplicaId} {n : Nat} {config : Config} {source : ρ} {machine : σ}
    (h : Replica.start id n config source machine = .ok r) : Booked [] [] [] [] r := by
  obtain ⟨quorums, rfl⟩ := Replica.start_eq_ok h
  refine ⟨rfl, by simp, by simp, by simp, fun s e q he hq => ?_, by simp⟩
  obtain ⟨-, rfl⟩ := Log.of_get?_empty he
  cases hq

omit [RandomSource ρ] [StateMachine σ] in
/-- The next input. -/
theorem bring {submitted : List ClientRequest} (hb : Booked submitted [] placed effects r)
    (input : Input) : Booked (submitted ++ input.requests) input.requests placed effects r :=
  { hb with order := by rw [hb.order, List.append_nil] }

/-- **In every run requests are given slots in order.** -/
theorem of_noting (hf : Tidy fresh) (hr : Rested fresh) (hb : Booked [] [] [] [] fresh)
    (h : fresh.Noting inputs r effects placed) :
    Booked (inputs.flatMap Input.requests) [] placed effects r := by
  induction h with
  | start => exact hb
  | @step inputs r r' effects out placed more h now input hs ih =>
    have ht := h.run.tidy hf
    have hrest := h.run.rested hf hr
    obtain ⟨⟨t, more⟩, ht', heq⟩ := map_eq_ok.mp hs
    cases heq
    have hbooks := Turn.books_onInput (fun ha => ⟨(ht.lead ha).1, hrest.drained ha⟩) ht'
    rw [List.flatMap_append, List.flatMap_singleton]
    exact hbooks _ _ _ (by simpa using ih.bring input)

omit [RandomSource ρ] [StateMachine σ] in
/-- **No overtaking**: of two requests that were given slots, the one that was submitted first
has the lower slot. -/
theorem slot_lt {submitted hand earlier later : List ClientRequest}
    (hb : Booked submitted hand placed effects r) (hsplit : submitted = earlier ++ later)
    {p₁ p₂ : Placement} (hp₁ : p₁ ∈ placed) (hp₂ : p₂ ∈ placed) (h₁ : p₁.request ∉ later)
    (h₂ : p₂.request ∉ earlier) : p₁.slot < p₂.slot := by
  have horder := hb.order.symm.trans hsplit
  rw [List.append_assoc] at horder
  rcases List.append_eq_append_iff.mp horder with ⟨rest, rfl, -⟩ | ⟨rest, hplaced, rfl⟩
  · exact absurd (List.mem_append_left _ (List.mem_map_of_mem hp₂)) h₂
  · obtain ⟨placed₁, placed₂, rfl, rfl, rfl⟩ := List.map_eq_append_iff.mp hplaced
    have hmem₁ : p₁ ∈ placed₁ := (List.mem_append.mp hp₁).resolve_right fun hp =>
      h₁ (List.mem_append_left _ (List.mem_map_of_mem hp))
    have hmem₂ : p₂ ∈ placed₂ := (List.mem_append.mp hp₂).resolve_left fun hp =>
      h₂ (List.mem_map_of_mem hp)
    have hrising := hb.rising
    rw [List.map_append, List.pairwise_append] at hrising
    exact hrising.2.2 _ (List.mem_map_of_mem hmem₁) _ (List.mem_map_of_mem hmem₂)

end Booked

/-- **Requests get slots in submission order.** Whatever a replica was given, list the slots that it
takes for requests to propose them, in the order in which it does: there is such a list, kept by
the steps of the replica themselves with a record of each proposal, and for every one of them the
slots increase strictly, the log held no entry at a slot when it was taken, and the requests they
went to and the queue, one after the other, are all requests submitted, in order. A reply names the
slot that its request was given. So if the submissions of one request all come before those of
another one, as those of requests do that are never handed back, and both are answered, the first
one is answered from the lower slot, whatever elections and preemptions happen in between. And the
replica goes on with every further input, unless a counter is at its limit or no delay can be
made. -/
theorem slots_in_submission_order {id : ReplicaId} {n : Nat} {config : Config} {source : ρ}
    {machine : σ} {fresh r : Replica ρ σ} {inputs : List Input} {effects : List Effect}
    (hstart : Replica.start id n config source machine = .ok fresh)
    (hrun : fresh.Run inputs r effects) :
    (∀ now (r' : Replica ρ σ) input, forget (r'.stepNoting now input) = r'.step now input) ∧
    (∃ placed, fresh.Noting inputs r effects placed) ∧
    (∀ placed, fresh.Noting inputs r effects placed →
      (placed.map Placement.slot).Pairwise (· < ·) ∧
      (∀ p ∈ placed, p.log.get? p.slot = none) ∧
      inputs.flatMap Input.requests = placed.map Placement.request ++ r.pending ∧
      ∀ q a, .reply q a ∈ effects → ∃ p ∈ placed, p.slot = a.slot ∧ p.request = q) ∧
    (∀ earlier later, inputs.flatMap Input.requests = earlier ++ later →
      ∀ q₁ q₂ a₁ a₂, q₁ ∉ later → q₂ ∉ earlier → .reply q₁ a₁ ∈ effects → .reply q₂ a₂ ∈ effects →
        a₁.slot < a₂.slot) ∧
    ∀ now input f, r.step now input = .error f →
      r.AtLimit input f := by
  have hf := Tidy.start hstart
  have hbooked : ∀ placed, fresh.Noting inputs r effects placed →
      Booked (inputs.flatMap Input.requests) [] placed effects r :=
    fun placed h => .of_noting hf (.start hstart) (.start hstart) h
  have hanswer : ∀ {q a}, .reply q a ∈ effects → (q, a) ∈ answers effects :=
    fun h => List.mem_filterMap.mpr ⟨_, h, rfl⟩
  obtain ⟨placed, hnoting⟩ := hrun.exists_noting
  refine ⟨fun now r' input => Replica.forget_stepNoting now r' input, ⟨placed, hnoting⟩,
    fun placed h => ?_, fun earlier later hsplit q₁ q₂ a₁ a₂ h₁ h₂ hr₁ hr₂ => ?_,
    fun now input f hs => atLimit_of_step (hrun.tidy hf) hs⟩
  · have hb := hbooked placed h
    exact ⟨hb.rising, hb.free, by simpa using hb.order,
      fun q a hqa => hb.answered q a (hanswer hqa)⟩
  · have hb := hbooked placed hnoting
    obtain ⟨p₁, hp₁, hslot₁, rfl⟩ := hb.answered q₁ a₁ (hanswer hr₁)
    obtain ⟨p₂, hp₂, hslot₂, rfl⟩ := hb.answered q₂ a₂ (hanswer hr₂)
    rw [← hslot₁, ← hslot₂]
    exact hb.slot_lt hsplit hp₁ hp₂ h₁ h₂

/-- Replica 1 is elected by replica 2 and proposes one request at slot 1. It is superseded by
replica 3, which asks for a vote at slot 3, takes a second request, is elected again, and proposes
that one at slot 4. Both are chosen and answered. -/
theorem slots_in_submission_order_reelected : ∃ (r : Replica Script Journal)
    (effects : List Effect) (placed : List Placement) (a₁ a₂ : CommandReply),
    placed.map Placement.request = [⟨0, [65]⟩, ⟨1, [66]⟩] ∧
      .reply ⟨0, [65]⟩ a₁ ∈ effects ∧ .reply ⟨1, [66]⟩ a₂ ∈ effects ∧ a₁.slot < a₂.slot ∧
      r.pending = [] := by
  obtain ⟨r, effects, hrun, hpending, hr₁, hr₂⟩ := Replica.Run.exists_of_feed
    (Network.trio.replica 1)
    [.request ⟨0, [65]⟩, .message (.promise ⟨⟨1, some 1⟩, 2, ∅⟩),
      .message (.accept ⟨⟨2, some 3⟩, 3, .client [67]⟩), .request ⟨1, [66]⟩,
      .message (.promise ⟨⟨3, some 1⟩, 2, ∅⟩), .message (.accepted ⟨⟨3, some 1⟩, 1, 2⟩),
      .message (.accepted ⟨⟨3, some 1⟩, 2, 2⟩), .message (.accepted ⟨⟨3, some 1⟩, 3, 2⟩),
      .message (.accepted ⟨⟨3, some 1⟩, 4, 2⟩)]
    (fun p => p.1.pending = [] ∧ .reply ⟨0, [65]⟩ ⟨1, [65], Decimal.bytes 1⟩ ∈ p.2 ∧
      .reply ⟨1, [66]⟩ ⟨4, [66], Decimal.bytes 3⟩ ∈ p.2)
    (by decide +kernel)
  have hstart : Replica.start 1 3 .standard (⟨[]⟩ : Script) Journal.empty =
      .ok (Network.trio.replica 1) := rfl
  obtain ⟨-, ⟨placed, hnoting⟩, hplaced, horder, -⟩ := slots_in_submission_order hstart hrun
  obtain ⟨-, -, hrequests, -⟩ := hplaced placed hnoting
  rw [hpending, List.append_nil] at hrequests
  exact ⟨r, effects, placed, _, _, hrequests.symm, hr₁, hr₂,
    horder [⟨0, [65]⟩] [⟨1, [66]⟩] rfl _ _ _ _ (by decide) (by decide) hr₁ hr₂, hpending⟩

end PaxosLog
