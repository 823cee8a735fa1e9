import PaxosLog.Proofs.Replica.Counting
import PaxosLog.Proofs.Replica.Tally

/-!
# Votes are counted exactly

A proposer announces a choice when it has enough acknowledgements, and an entry keeps the
acknowledgements that it has when its command or its ballot changes. What makes the count right all
the same is that a proposal starts it over, that an acknowledgement counts only under the ballot of
the proposal, and that a proposer which lost its ballot proposes again before it counts anything.

`Replica.History` is a run with authentic inputs that keeps the order of inputs and effects. In it
"since the replica asked for votes" makes sense:

* `Quorum.Exact`: the replica itself, and whoever acknowledged the slot under the ballot since the
  replica asked for votes.
* `Replica.CountsExactly`: all votes under the ballot of the replica, if it is its own, are counted
  exactly. Every move that counts no acknowledgement keeps this (`Midway.move`), and so does every
  step (`backed_of_step`).
* `Backed`: what stands behind an announcement.
* `AnnouncedOnce`: what was announced is chosen, so it is not announced again.
* **`votes_counted_exactly`**: every announcement is backed, and there is one for each slot at most.
-/

namespace PaxosLog

/-- What can be seen of a replica: an input reaches it, or an effect leaves it. -/
inductive Observation where
  | given (input : Input)
  | did (x : Effect)
deriving DecidableEq

/-- The effect, if it is one. -/
def Observation.effect? : Observation → Option Effect
  | .given _ => none
  | .did x => some x

/-- The effects that were seen. -/
def effectsSeen (seen : List Observation) : List Effect := seen.filterMap Observation.effect?

@[simp] theorem effectsSeen_append (seen more : List Observation) :
    effectsSeen (seen ++ more) = effectsSeen seen ++ effectsSeen more :=
  List.filterMap_append

@[simp] theorem effectsSeen_given (input : Input) (seen : List Observation) :
    effectsSeen (.given input :: seen) = effectsSeen seen := rfl

theorem effectsSeen_input (seen : List Observation) (input : Input) :
    effectsSeen (seen ++ [.given input]) = effectsSeen seen := by
  rw [effectsSeen_append, effectsSeen_given]
  exact List.append_nil _

@[simp] theorem effectsSeen_did (effects : List Effect) :
    effectsSeen (effects.map .did) = effects := by
  induction effects with
  | nil => rfl
  | cons x effects ih => exact congrArg (x :: ·) ih

theorem mem_effectsSeen {seen : List Observation} {x : Effect} :
    x ∈ effectsSeen seen ↔ .did x ∈ seen := by
  unfold effectsSeen
  rw [List.mem_filterMap]
  constructor
  · rintro ⟨y, hy, hx⟩
    cases y with
    | given input => cases hx
    | did y => cases hx; exact hy
  · intro hx
    exact ⟨_, hx, rfl⟩

/-- Something stands in a list that was continued: it stood there before, or is in what was
added. -/
theorem split_append {α : Type} {xs more earlier since : List α} {y : α}
    (h : xs ++ more = earlier ++ y :: since) :
    (∃ rest, xs = earlier ++ y :: rest ∧ since = rest ++ more) ∨
      ∃ front, earlier = xs ++ front ∧ more = front ++ y :: since := by
  rcases List.append_eq_append_iff.mp h with ⟨front, hearlier, hmore⟩ | ⟨rest, hxs, hrest⟩
  · exact .inr ⟨front, hearlier, hmore⟩
  · cases rest with
    | nil => exact .inr ⟨[], by simpa using hxs.symm, hrest.symm⟩
    | cons z rest =>
      obtain ⟨rfl, rfl⟩ := List.cons.inj hrest
      exact .inl ⟨rest, hxs, rfl⟩

/-! ## Exact counts -/

/-- The voters are `id` and the senders of the acknowledgements for slot `s` under `b` that were
given since votes for it were asked for. -/
def Quorum.Exact (q : Quorum) (id : ReplicaId) (b : Ballot) (s : Slot) (seen : List Observation) :
    Prop :=
  ∀ earlier since c, seen = earlier ++ .did (.broadcast (.accept ⟨b, s, c⟩)) :: since →
    ∀ a, a ∈ q.voters ↔ a = id ∨ .given (.message (.accepted ⟨b, s, a⟩)) ∈ since

namespace Quorum.Exact

variable {q : Quorum} {id : ReplicaId} {b : Ballot} {s : Slot} {seen more : List Observation}

/-- Nothing new asks for votes on the slot, or acknowledges it without being counted. -/
theorem append (h : q.Exact id b s seen)
    (hask : ∀ c, .did (.broadcast (.accept ⟨b, s, c⟩)) ∉ more)
    (hack : ∀ a, .given (.message (.accepted ⟨b, s, a⟩)) ∈ more → a ∈ q.voters) :
    q.Exact id b s (seen ++ more) := by
  intro earlier since c heq a
  rcases split_append heq with ⟨rest, hseen, rfl⟩ | ⟨front, -, hmore⟩
  · have hrest := h earlier rest c hseen a
    rw [List.mem_append]
    constructor
    · intro ha
      exact (hrest.mp ha).imp_right .inl
    · rintro (ha | ha | ha)
      · exact hrest.mpr (.inl ha)
      · exact hrest.mpr (.inr ha)
      · exact hack a ha
  · exact absurd (List.mem_iff_append.mpr ⟨front, since, hmore⟩) (hask c)

/-- Effects that ask for no vote on the slot. -/
theorem append_did {effects : List Effect} (h : q.Exact id b s seen)
    (hask : ∀ c, .broadcast (.accept ⟨b, s, c⟩) ∉ effects) :
    q.Exact id b s (seen ++ effects.map .did) := by
  refine h.append (fun c hc => ?_) fun a ha => ?_
  · obtain ⟨x, hx, heq⟩ := List.mem_map.mp hc
    cases heq
    exact hask c hx
  · obtain ⟨x, -, heq⟩ := List.mem_map.mp ha
    cases heq

/-- An input, which is no acknowledgement for the slot unless it is one that is counted already. -/
theorem append_given (h : q.Exact id b s seen) {input : Input}
    (hack : ∀ a, input = .message (.accepted ⟨b, s, a⟩) → a ∈ q.voters) :
    q.Exact id b s (seen ++ [.given input]) := by
  refine h.append (by simp) fun a ha => hack a ?_
  exact (Observation.given.inj (List.mem_singleton.mp ha)).symm

/-- An acknowledgement that is counted. -/
theorem ack (h : q.Exact id b s seen) (sender : ReplicaId) :
    (q.ack sender).Exact id b s (seen ++ [.given (.message (.accepted ⟨b, s, sender⟩))]) := by
  intro earlier since c heq a
  rcases split_append heq with ⟨rest, hseen, rfl⟩ | ⟨front, -, hmore⟩
  · rw [Quorum.mem_ack, h earlier rest c hseen a, List.mem_append, List.mem_singleton, or_assoc]
    refine or_congr_right (or_congr_right ⟨?_, ?_⟩)
    · rintro rfl; rfl
    · intro heq; cases heq; rfl
  · cases List.mem_singleton.mp (List.mem_iff_append.mpr ⟨front, since, hmore⟩)

/-- The count starts over with a proposal. If there was an earlier one for the same slot under the
same ballot, no acknowledgement was given in between. -/
theorem ask (c : Command) (h : ∀ earlier since c',
      seen = earlier ++ .did (.broadcast (.accept ⟨b, s, c'⟩)) :: since →
        ∀ input, .given input ∉ since) :
    (Quorum.empty.ack id).Exact id b s (seen ++ [.did (.broadcast (.accept ⟨b, s, c⟩))]) := by
  intro earlier since c' heq a
  rw [Quorum.mem_empty_ack]
  refine ⟨.inl, fun ha => ha.resolve_right fun hgiven => ?_⟩
  rcases split_append heq with ⟨rest, hseen, rfl⟩ | ⟨front, -, hmore⟩
  · rcases List.mem_append.mp hgiven with hgiven | hgiven
    · exact h earlier rest c' hseen _ hgiven
    · cases List.mem_singleton.mp hgiven
  · have hmem : .given (.message (.accepted ⟨b, s, a⟩)) ∈
        front ++ .did (.broadcast (.accept ⟨b, s, c'⟩)) :: since :=
      List.mem_append_right front (List.mem_cons_of_mem _ hgiven)
    rw [← hmore] at hmem
    cases List.mem_singleton.mp hmem

end Quorum.Exact

variable {ρ σ : Type}

/-- All votes under the ballot of the replica, if it is its own, are counted exactly. -/
def Replica.CountsExactly (r : Replica ρ σ) (seen : List Observation) : Prop :=
  ∀ s e, r.log.Open s e → e.ballot = r.ballot → r.ballot.owner = some r.id →
    e.acks.Exact r.id r.ballot s seen

/-- What stands behind the announcement of `m`, after `seen`: the replica `r` leads under the
ballot, which is its own, has proposed the command under it, and has counted exactly, and exactly as
many votes as are needed. -/
structure Backed (seen : List Observation) (m : Commit) (r : Replica ρ σ) : Prop where
  active : r.active = true
  ballot : r.ballot = m.ballot
  owner : m.ballot.owner = some r.id
  proposed : .did (.broadcast (.accept ⟨m.ballot, m.slot, m.command⟩)) ∈ seen
  counted : ∃ e, r.log.get? m.slot = some e ∧ e.isCommitted = true ∧ e.ballot = m.ballot ∧
    e.command = m.command ∧ e.acks.Exact r.id m.ballot m.slot seen ∧
    e.acks.size = r.quorums.phase2

variable [RandomSource ρ] [StateMachine σ] {before : Replica ρ σ} {input : Input} {t t' : Turn ρ σ}
  {seen : List Observation}

/-! ## Moves -/

/-- What holds in the middle of a step, after `seen`, the last of which is the input. -/
structure Midway (before : Replica ρ σ) (seen : List Observation) (t : Turn ρ σ) : Prop where
  id : t.id = before.id
  quorums : t.quorums = before.quorums
  authored : Authored (effectsSeen seen ++ t.effects) t.toReplica
  older : before.active = false →
    ∀ m, .broadcast (.accept m) ∈ effectsSeen seen → m.ballot < t.ballot
  exact : t.toReplica.CountsExactly (seen ++ t.effects.map .did)
  atMost : t.log.Below (t.quorums.phase2 + 1)

namespace Midway

omit [RandomSource ρ] [StateMachine σ] in
/-- A request for votes under the current ballot, if there is one already, was sent in this step. -/
theorem asked_now (h : Midway before seen t) {s : Slot} {c : Command}
    (hnew : t.log.get? s = none ∨ before.active = false) :
    Effect.broadcast (.accept ⟨t.ballot, s, c⟩) ∉ effectsSeen seen := by
  intro hx
  rcases hnew with hfree | hinactive
  · obtain ⟨e, he, -⟩ := ((h.authored.asked _ (List.mem_append_left _ hx)).2 rfl).2
    rw [hfree] at he
    cases he
  · exact absurd (h.older hinactive _ hx) Std.lt_irrefl

omit [RandomSource ρ] [StateMachine σ] in
/-- A proposal starts the count over. -/
theorem exact_ask (h : Midway before seen t) {s : Slot} {e : LogEntry}
    (hacks : e.acks = Quorum.empty.ack t.id)
    (hnew : t.log.get? s = none ∨ before.active = false) (c : Command) :
    e.acks.Exact t.id t.ballot s
      (seen ++ (t.effects ++ [Effect.broadcast (.accept ⟨t.ballot, s, c⟩)]).map .did) := by
  rw [hacks, List.map_append, ← List.append_assoc]
  refine Quorum.Exact.ask c fun earlier since c' heq input hgiven => ?_
  rcases split_append heq with ⟨rest, hseen, -⟩ | ⟨front, -, hnow⟩
  · have hx := mem_effectsSeen.mpr (List.mem_iff_append.mpr ⟨earlier, rest, hseen⟩)
    exact h.asked_now hnew hx
  · have hmem : .given input ∈ t.effects.map Observation.did := by
      rw [hnow]
      exact List.mem_append_right front (List.mem_cons_of_mem _ hgiven)
    obtain ⟨x, -, heq⟩ := List.mem_map.mp hmem
    cases heq

omit [RandomSource ρ] [StateMachine σ] in
/-- Nobody reports a vote under the ballot of the replica that it does not have. -/
theorem not_brought (h : Midway before seen t) (hauth : input.Authentic t.id (effectsSeen seen))
    {m : Message} {s : Slot} {p : PromisedEntry} {e : LogEntry} (hi : input = .message m)
    (hcited : ⟨p.ballot, s, p.command⟩ ∈ m.cited) (hnew : t.log.Brought s p e)
    (hown : e.ballot.owner = some t.id) (hle : t.ballot ≤ e.ballot) : False := by
  rw [hnew.ballot] at hown hle
  have hx := Authored.cited_of_input hauth hi hcited hown
  obtain ⟨hge, hsame⟩ := h.authored.asked _ (List.mem_append_left _ hx)
  obtain ⟨e₀, he₀, hcovers⟩ := (hsame (Std.le_antisymm hge hle)).2
  obtain ⟨hopen, hlt⟩ := hnew.above e₀ he₀
  rcases hcovers with hc | ⟨-, hge⟩
  · exact absurd (hc.symm.trans hopen) (by simp)
  · rw [hnew.ballot] at hlt
    exact absurd (Std.lt_of_lt_of_le hlt hge) Std.lt_irrefl

/-- **Every move keeps the counts exact.** -/
theorem exact_move (h : Midway before seen t) (hmove : Move before input t t')
    (hi : ∀ a, input ≠ .message (.accepted a)) (hauth : input.Authentic t.id (effectsSeen seen)) :
    t'.toReplica.CountsExactly (seen ++ t'.effects.map .did) := by
  intro s e ho hb hown
  have hid := hmove.id_eq
  rw [hid] at hown ⊢
  -- A vote that was there before was under the same ballot, for the replica proposed it.
  have hkept : t.log.Open s e → t'.ballot = t.ballot ∧
      e.acks.Exact t.id t.ballot s (seen ++ t.effects.map .did) := by
    intro hold
    have hx := h.authored.own s e hold (hb ▸ hown)
    obtain ⟨hbt, hsame⟩ := hmove.ballot_stays (h.authored.asked _ hx).1 hb
    exact ⟨hsame, h.exact s e hold hbt (hsame ▸ hown)⟩
  cases hmove.polls with
  | ask u f hf hacks hnew hballot hlog hx =>
    rw [hballot, hx]
    rcases hlog s e ho with ⟨rfl, rfl⟩ | ⟨hne, hold⟩
    · exact h.exact_ask hacks hnew _
    · rw [List.map_append, ← List.append_assoc]
      refine (hkept hold).2.append_did fun c hc => ?_
      cases List.mem_singleton.mp hc
      exact hne rfl
  | count m hi' hx => exact absurd hi' (hi m)
  | choose u f hf hown' hb' hq ht' =>
    subst ht'
    have hset : (t.log.set u f.commit).Open s e := ⟨ho.entry, ho.vote⟩
    obtain ⟨-, hold⟩ := Log.open_of_set_chosen (LogEntry.isCommitted_commit f) hset
    rw [Turn.emit_effects, List.map_append, ← List.append_assoc]
    exact (hkept hold).2.append_did (by simp)
  | other more hx hquiet hlog =>
    rcases hlog s e ho with hold | ⟨m, p, hi', hcited, hnew⟩
    · obtain ⟨hsame, hexact⟩ := hkept hold
      rw [hsame, hx, List.map_append, ← List.append_assoc]
      exact hexact.append_did fun c hc => hquiet _ hc trivial
    · have hle : t.ballot ≤ e.ballot := hb ▸ hmove.ballot_le
      exact (h.not_brought hauth hi' hcited hnew (hb ▸ hown) hle).elim

/-- No count goes beyond what is needed: only acknowledgements could make it. -/
theorem atMost_move (h : Midway before seen t) (hmove : Move before input t t')
    (hi : ∀ a, input ≠ .message (.accepted a)) : t'.log.Below (t'.quorums.phase2 + 1) := by
  rw [hmove.quorums_eq]
  intro s e ho
  cases hmove.polls with
  | ask u f hf hacks hnew hballot hlog hx =>
    rcases hlog s e ho with ⟨-, rfl⟩ | ⟨-, hold⟩
    · have hone : e.acks.size ≤ Quorum.empty.size + 1 := hacks ▸ Quorum.size_ack_le _ _
      have hpos := t.quorums.phase2_pos
      rw [Quorum.size_empty] at hone
      omega
    · exact h.atMost s e hold
  | count m hi' hx => exact absurd hi' (hi m)
  | choose u f hf hown hb hq ht' =>
    subst ht'
    have hset : (t.log.set u f.commit).Open s e := ⟨ho.entry, ho.vote⟩
    exact h.atMost s e (Log.open_of_set_chosen (LogEntry.isCommitted_commit f) hset).2
  | other more hx hquiet hlog =>
    rcases hlog s e ho with hold | ⟨m, p, -, -, hnew⟩
    · exact h.atMost s e hold
    · exact h.atMost.brought (Nat.succ_pos _) hnew

/-- **Every move that counts no acknowledgement keeps this.** -/
theorem move (h : Midway before seen t) (hmove : Move before input t t')
    (hi : ∀ a, input ≠ .message (.accepted a)) (hauth : input.Authentic t.id (effectsSeen seen)) :
    Midway before seen t' where
  id := hmove.id_eq.trans h.id
  quorums := hmove.quorums_eq.trans h.quorums
  authored := h.authored.move hmove hauth
  older hinactive m hx := Std.lt_of_lt_of_le (h.older hinactive m hx) hmove.ballot_le
  exact := h.exact_move hmove hi hauth
  atMost := h.atMost_move hmove hi

end Midway

/-! ## Announcements -/

/-- What stands behind an announcement stays while the ballot does. -/
theorem Backed.move {m : Commit} (h : Backed seen m t.toReplica) (hmove : Move before input t t')
    (hb : t'.ballot = t.ballot) : Backed seen m t'.toReplica := by
  obtain ⟨e, he, hc, hbal, hcmd, hexact, hsize⟩ := h.counted
  have hid := hmove.id_eq
  have hquorums := hmove.quorums_eq
  refine ⟨hmove.active_kept h.active hb, hb.trans h.ballot, hid ▸ h.owner, h.proposed, ?_⟩
  rw [hid, hquorums]
  rcases hmove.chosen_kept he hc with ⟨he', -⟩ | ⟨-, he'⟩
  · exact ⟨e, he', hc, hbal, hcmd, hexact, hsize⟩
  · exact ⟨e.withoutRequest, he', hc, hbal, hcmd, hexact, hsize⟩

/-- The announcements among the effects are backed. -/
def AllBacked (seen : List Observation) (effects : List Effect) (r : Replica ρ σ) : Prop :=
  ∀ out rest m, effects = out ++ .broadcast (.commit m) :: rest →
    Backed (seen ++ out.map .did) m r

omit [RandomSource ρ] [StateMachine σ] in
theorem allBacked_of_quiet {effects : List Effect} {r : Replica ρ σ}
    (h : ∀ m, .broadcast (.commit m) ∉ effects) : AllBacked seen effects r := by
  intro out rest m heq
  exact absurd (List.mem_iff_append.mpr ⟨out, rest, heq⟩) (h m)

namespace Midway

omit [RandomSource ρ] [StateMachine σ] in
/-- **Who chooses has counted exactly.** -/
theorem backed_choose (h : Midway before seen t) {s : Slot} {e : LogEntry} (ho : t.log.Open s e)
    (hown : t.ballot.owner = some t.id) (hb : e.ballot = t.ballot)
    (hq : t.quorums.phase2 ≤ e.acks.size) :
    Backed (seen ++ t.effects.map .did) ⟨e.ballot, s, e.command⟩
      { t.toReplica with log := t.log.set s e.commit } := by
  have hx := h.authored.own s e ho (hb ▸ hown)
  have hsize := h.atMost s e ho
  have hexact := h.exact s e ho hb hown
  refine ⟨h.authored.active ho hb hown, hb.symm, hb ▸ hown, ?_, e.commit,
    (Log.get?_set _ _ _ _).trans (if_pos rfl), rfl, rfl, rfl, ?_, ?_⟩
  · rw [← mem_effectsSeen]
    simpa using hx
  · show e.acks.Exact t.id e.ballot s _
    rw [hb]
    exact hexact
  · show e.acks.size = t.quorums.phase2
    omega

theorem allBacked_move (h : Midway before seen t) (hmove : Move before input t t')
    (hi : ∀ a, input ≠ .message (.accepted a)) (hb : t'.ballot = t.ballot)
    (hall : AllBacked seen t.effects t.toReplica) :
    AllBacked seen t'.effects t'.toReplica := by
  -- An announcement that was made before, or one that is made now.
  have hsplit : ∀ {more out rest m}, t'.effects = t.effects ++ more →
      t'.effects = out ++ .broadcast (.commit m) :: rest →
      Backed (seen ++ out.map .did) m t'.toReplica ∨
        ∃ front, out = t.effects ++ front ∧ more = front ++ .broadcast (.commit m) :: rest := by
    intro more out rest m hx heq
    rcases split_append (hx.symm.trans heq) with ⟨rest', hold, -⟩ | hnew
    · exact .inl ((hall out rest' m hold).move hmove hb)
    · exact .inr hnew
  intro out rest m heq
  cases hmove.polls with
  | ask s e he hacks hnew hballot hlog hx =>
    rcases hsplit hx heq with hbacked | ⟨front, -, hmore⟩
    · exact hbacked
    · cases List.mem_singleton.mp (List.mem_iff_append.mpr ⟨front, rest, hmore⟩)
  | count m hi' hx => exact absurd hi' (hi m)
  | choose s e ho hown hbal hq ht' =>
    subst ht'
    rcases hsplit (Turn.emit_effects _ _) heq with hbacked | ⟨front, hout, hmore⟩
    · exact hbacked
    · obtain ⟨rfl, hm, -⟩ : front = [] ∧ _ = m ∧ rest = [] := by
        cases front with
        | nil => cases hmore; exact ⟨rfl, rfl, rfl⟩
        | cons x front => simp at hmore
      rw [List.append_nil] at hout
      subst hout
      cases hm
      exact h.backed_choose ho hown hbal hq
  | other more hx hquiet hlog =>
    rcases hsplit hx heq with hbacked | ⟨front, -, hmore⟩
    · exact hbacked
    · exact absurd trivial (hquiet _ (List.mem_iff_append.mpr ⟨front, rest, hmore⟩))

/-- Moves that do not change the ballot in the end do not change it in between. -/
theorem moves (h : Midway before seen t) (hmoves : Moves before input t t')
    (hi : ∀ a, input ≠ .message (.accepted a))
    (hauth : input.Authentic before.id (effectsSeen seen)) :
    Midway before seen t' ∧ t.ballot ≤ t'.ballot ∧
      (t'.ballot = t.ballot → AllBacked seen t.effects t.toReplica →
        AllBacked seen t'.effects t'.toReplica) := by
  induction hmoves with
  | refl => exact ⟨h, Std.le_refl _, fun _ hall => hall⟩
  | @tail t₁ t₂ _ hmove ih =>
    obtain ⟨h₁, hle, hkeeps⟩ := ih
    refine ⟨h₁.move hmove hi (h₁.id ▸ hauth), Std.le_trans hle hmove.ballot_le, fun hb hall => ?_⟩
    obtain ⟨hb₁, hsame⟩ := hmove.ballot_stays hle hb.symm
    exact h₁.allBacked_move hmove hi hsame (hkeeps hb₁.symm hall)

end Midway

/-! ## No slot is announced twice -/

/-- The announcement, if the effect is one. -/
def Effect.commit? : Effect → Option Commit
  | .broadcast (.commit m) => some m
  | _ => none

/-- The slots of the announcements, in order. -/
def announcedSlots (effects : List Effect) : List Slot :=
  (effects.filterMap Effect.commit?).map Commit.slot

theorem announcedSlots_append (effects more : List Effect) :
    announcedSlots (effects ++ more) = announcedSlots effects ++ announcedSlots more := by
  simp [announcedSlots]

theorem announcedSlots_of_quiet {effects : List Effect} (h : ∀ x ∈ effects, ¬ x.IsPoll) :
    announcedSlots effects = [] := by
  rw [announcedSlots, List.map_eq_nil_iff, List.filterMap_eq_nil_iff]
  intro x hx
  have hquiet := h x hx
  cases x with
  | broadcast m =>
    cases m with
    | commit m => exact absurd trivial hquiet
    | _ => rfl
  | _ => rfl

/-- Slots are announced once, and are chosen from then on. -/
structure AnnouncedOnce (effects : List Effect) (r : Replica ρ σ) : Prop where
  nodup : (announcedSlots effects).Nodup
  chosen : ∀ s ∈ announcedSlots effects, ∃ e, r.log.get? s = some e ∧ e.isCommitted = true

/-- **Every move keeps this.** -/
theorem AnnouncedOnce.move {prior : List Effect} (h : Move before input t t')
    (hx : AnnouncedOnce (prior ++ t.effects) t.toReplica) :
    AnnouncedOnce (prior ++ t'.effects) t'.toReplica := by
  have hstay : ∀ s ∈ announcedSlots (prior ++ t.effects),
      ∃ e, t'.log.get? s = some e ∧ e.isCommitted = true := by
    intro s hs
    obtain ⟨e, he, hc⟩ := hx.chosen s hs
    obtain ⟨e', he', hc', -⟩ := h.still_chosen he hc
    exact ⟨e', he', hc'⟩
  have hsame : ∀ {more}, t'.effects = t.effects ++ more → announcedSlots more = [] →
      AnnouncedOnce (prior ++ t'.effects) t'.toReplica := by
    intro more heff hnone
    have hslots : announcedSlots (prior ++ t'.effects) = announcedSlots (prior ++ t.effects) := by
      rw [heff, ← List.append_assoc, announcedSlots_append, hnone, List.append_nil]
    exact ⟨hslots ▸ hx.nodup, hslots ▸ hstay⟩
  cases h.polls with
  | ask s e hb hacks hnew hballot hlog heff => exact hsame heff rfl
  | count m hi heff => exact hsame (heff.trans (List.append_nil _).symm) rfl
  | choose s e ho hown hb hq ht' =>
    subst ht'
    have hslots : announcedSlots (prior ++ (t.effects ++
        [.broadcast (.commit ⟨e.ballot, s, e.command⟩)])) =
        announcedSlots (prior ++ t.effects) ++ [s] := by
      rw [← List.append_assoc, announcedSlots_append]
      rfl
    constructor
    · rw [Turn.emit_effects, hslots, List.nodup_append]
      refine ⟨hx.nodup, List.nodup_singleton s, fun u hu v hv huv => ?_⟩
      rw [List.mem_singleton] at hv
      obtain ⟨e₀, he₀, hc₀⟩ := hx.chosen u hu
      rw [huv, hv, ho.entry, Option.some_inj] at he₀
      exact absurd (hc₀.symm.trans (he₀ ▸ ho.vote)) (by simp)
    · rw [Turn.emit_effects, hslots]
      intro u hu
      rcases List.mem_append.mp hu with hu | hu
      · exact hstay u hu
      · rw [List.mem_singleton.mp hu]
        exact ⟨e.commit, (Log.get?_set _ _ _ _).trans (if_pos rfl), rfl⟩
  | other more heff hquiet hlog => exact hsame heff (announcedSlots_of_quiet hquiet)

/-! ## Steps -/

section Steps

variable {r r' : Replica ρ σ} {now : Duration} {out : List Effect}

omit [RandomSource ρ] [StateMachine σ] in
/-- The beginning of a step, with what is counted at once. -/
theorem midway_start (hrest : t.toReplica = { r with log := t.log }) (hnone : t.effects = [])
    (ha : Authored (effectsSeen seen) t.toReplica) (hx : t.toReplica.CountsExactly seen)
    (hb : t.log.Below (t.quorums.phase2 + 1)) : Midway r seen t where
  id := by rw [hrest]
  quorums := by rw [hrest]
  authored := by rwa [hnone, List.append_nil]
  older hinactive m hm := by
    obtain ⟨hle, hsame⟩ := ha.asked m hm
    have hinactive : t.active = false := by rw [hrest, hinactive]
    refine Std.not_le.mp fun hge => ?_
    have hact := (hsame (Std.le_antisymm hle hge)).1
    exact absurd (hinactive.symm.trans hact) (by simp)
  exact := by rwa [hnone, List.map_nil, List.append_nil]
  atMost := hb

/-- A step that handles no acknowledgement. -/
theorem counts_of_step (ht : Tidy r) (ha : Authored (effectsSeen seen) r)
    (hb : r.log.Below r.quorums.phase2) (hx : r.CountsExactly seen)
    (hi : ∀ a, input ≠ .message (.accepted a))
    (hauth : input.Authentic r.id (effectsSeen seen)) (hs : r.step now input = .ok (r', out)) :
    r'.CountsExactly (seen ++ .given input :: out.map .did) ∧
      AllBacked (seen ++ [.given input]) out r' := by
  obtain ⟨t, ⟨t₁, hmoves, hquiet, hrest, hballot⟩, rfl, rfl⟩ := announces_of_step ht hi hs
  rw [← effectsSeen_input seen input] at ha hauth
  have hstart : Midway r (seen ++ [.given input]) { r with now, effects := [] } := by
    refine midway_start rfl rfl ha (fun s e ho hbal hown => ?_)
      fun s e ho => Nat.lt_succ_of_lt (hb s e ho)
    exact (hx s e ho hbal hown).append_given fun a ha => absurd ha (hi _)
  obtain ⟨hmid₁, -, -⟩ := hstart.moves hmoves hi hauth
  obtain ⟨hmid, -, hkeeps⟩ := hmid₁.moves hrest hi hauth
  refine ⟨?_, hkeeps hballot (allBacked_of_quiet hquiet)⟩
  have hexact := hmid.exact
  rwa [List.append_assoc] at hexact

/-- An acknowledgement that counts is added to the votes for its slot. -/
theorem midway_counted (ha : Authored (effectsSeen seen) r)
    (hb : r.log.Below r.quorums.phase2) (hx : r.CountsExactly seen) {m : Accepted} {e : LogEntry}
    (hauth : (Message.accepted m).Authentic r.id (effectsSeen seen))
    (he : r.log.get? m.slot = some e) (hc : e.isCommitted = false) (hbal : e.ballot = r.ballot)
    (hm : m.ballot = r.ballot) (hown : r.ballot.owner = some r.id) :
    Midway r (seen ++ [.given (.message (.accepted m))])
      { r with log := r.log.set m.slot (e.ack m.sender), now, effects := [] } := by
  have hmove : Move r (.message (.accepted m)) { r with now, effects := [] }
      { r with log := r.log.set m.slot (e.ack m.sender), now, effects := [] } :=
    .countVote m e rfl rfl he hc hbal hm hown
  have ha' : Authored (effectsSeen seen ++ []) _ := Authored.move hmove hauth (by simpa using ha)
  refine midway_start rfl rfl ?_ (fun s f ho hbal' _ => ?_) fun s f ho => ?_
  · rw [effectsSeen_input]
    simpa using ha'
  · rcases Log.open_set ho with ⟨rfl, rfl⟩ | ⟨hne, hold⟩
    · have hcount := (hx m.slot e ⟨he, hc⟩ hbal hown).ack m.sender
      have hgiven : (⟨r.ballot, m.slot, m.sender⟩ : Accepted) = m := by rw [← hm]
      rw [hgiven] at hcount
      exact hcount
    · refine (hx s f hold hbal' hown).append_given fun a hi => ?_
      cases hi
      exact absurd rfl hne
  · rcases Log.open_set ho with ⟨rfl, rfl⟩ | ⟨-, hold⟩
    · have hlt := hb m.slot e ⟨he, hc⟩
      have hle := Quorum.size_ack_le e.acks m.sender
      show (e.acks.ack m.sender).size < r.quorums.phase2 + 1
      omega
    · exact Nat.lt_succ_of_lt (hb s f hold)

/-- A step that handles an acknowledgement. -/
theorem counts_of_accepted (ha : Authored (effectsSeen seen) r)
    (hb : r.log.Below r.quorums.phase2) (hx : r.CountsExactly seen) {m : Accepted}
    (hauth : (Message.accepted m).Authentic r.id (effectsSeen seen))
    (hs : r.step now (.message (.accepted m)) = .ok (r', out)) :
    r'.CountsExactly (seen ++ .given (.message (.accepted m)) :: out.map .did) ∧
      AllBacked (seen ++ [.given (.message (.accepted m))]) out r' := by
  obtain ⟨t, ht, heq⟩ := map_eq_ok.mp hs
  cases heq
  change Turn.onAccepted { r with now, effects := [] } m = .ok t at ht
  cases Turn.onAccepted_eq_ok ht with
  | ignored h =>
    subst h
    refine ⟨fun s e ho hbal hown => ?_, allBacked_of_quiet (by simp)⟩
    refine (hx s e ho hbal hown).append_given fun a hi => ?_
    cases hi
    -- It was not ignored, but came a second time.
    have hcounted := Turn.tally_of_counted ho.entry ho.vote hbal rfl hown ht s
    rw [if_pos rfl, Log.tally, ho.entry] at hcounted
    have hacks : e.acks = e.acks.ack a := by
      simpa [LogEntry.tally, LogEntry.ack] using hcounted
    rw [hacks]
    exact Quorum.mem_ack.mpr (.inr rfl)
  | superseded hlt h =>
    have hballot := Turn.ballot_of_follow (Std.le_of_lt hlt) h
    have hquiet := Turn.quiet_follow rfl h
    refine ⟨fun s e ho hbal hown => ?_, allBacked_of_quiet hquiet⟩
    obtain ⟨_, _, _, _, rfl, -⟩ := Turn.follow_eq_ok h
    rw [hballot] at hown
    exact absurd hown (ha.foreign hauth hlt)
  | counted e he hc hbal hm hown h =>
    have hmid : Midway r (seen ++ [.given (.message (.accepted m))])
        { r with log := r.log.set m.slot (e.ack m.sender), now, effects := [] } :=
      midway_counted ha hb hx hauth he hc hbal hm hown
    have hw : Works r .elect [] _ t := Turn.works_counted hbal hown h
    obtain ⟨hmid', -, hkeeps⟩ := hmid.moves (hw.carries []).moves (by simp) trivial
    refine ⟨?_, hkeeps (by rw [hw.rest]) (allBacked_of_quiet (by simp))⟩
    have hexact := hmid'.exact
    rwa [List.append_assoc] at hexact

/-- **A step keeps the counts exact**, and what it announces is backed. -/
theorem backed_of_step (ht : Tidy r) (ha : Authored (effectsSeen seen) r)
    (hb : r.log.Below r.quorums.phase2) (hx : r.CountsExactly seen)
    (hauth : input.Authentic r.id (effectsSeen seen)) (hs : r.step now input = .ok (r', out)) :
    r'.CountsExactly (seen ++ .given input :: out.map .did) ∧
      AllBacked (seen ++ [.given input]) out r' := by
  by_cases hi : ∃ m, input = .message (.accepted m)
  · obtain ⟨m, rfl⟩ := hi
    exact counts_of_accepted ha hb hx hauth hs
  · exact counts_of_step ht ha hb hx (fun m hm => hi ⟨m, hm⟩) hauth hs

end Steps

/-! ## Histories -/

/-- A run with authentic inputs, with everything that can be seen of it in order. -/
inductive Replica.History (fresh : Replica ρ σ) : List Observation → Replica ρ σ → Prop
  | start : History fresh [] fresh
  | step {seen : List Observation} {r r' : Replica ρ σ} {out : List Effect}
      (h : History fresh seen r) (now : Duration) (input : Input)
      (ha : input.Authentic fresh.id (effectsSeen seen)) (hs : r.step now input = .ok (r', out)) :
      History fresh (seen ++ .given input :: out.map .did) r'

namespace Replica

variable {fresh r r' : Replica ρ σ} {inputs : List Input} {effects : List Effect}

theorem History.authenticRun (h : fresh.History seen r) :
    ∃ inputs, fresh.AuthenticRun [] inputs r (effectsSeen seen) := by
  induction h with
  | start => exact ⟨[], .start⟩
  | step h now input ha hs ih =>
    obtain ⟨inputs, hrun⟩ := ih
    refine ⟨inputs ++ [input], ?_⟩
    rw [effectsSeen_append, effectsSeen_given, effectsSeen_did]
    exact hrun.step now input ha hs

/-- Every run with authentic inputs has a history. -/
theorem AuthenticRun.exists_history (h : fresh.AuthenticRun [] inputs r effects) :
    ∃ seen, fresh.History seen r ∧ effectsSeen seen = effects := by
  induction h with
  | start => exact ⟨[], .start, rfl⟩
  | step h now input ha hs ih =>
    obtain ⟨seen, hhistory, rfl⟩ := ih
    exact ⟨_, hhistory.step now input ha hs, by simp⟩

/-- **In every history votes are counted exactly**, and there are too few between two inputs. -/
theorem History.counts (h : fresh.History seen r) (hf : Tidy fresh) (ha : Authored [] fresh)
    (hb : fresh.log.Below fresh.quorums.phase2) (hx : fresh.CountsExactly []) :
    r.log.Below r.quorums.phase2 ∧ r.CountsExactly seen := by
  induction h with
  | start => exact ⟨hb, hx⟩
  | step h now input hauth hs ih =>
    obtain ⟨hbelow, hexact⟩ := ih
    obtain ⟨inputs, hrun⟩ := h.authenticRun
    have ht := hrun.run.tidy hf
    have hquorums := (hrun.step now input hauth hs).run.quorums_eq hf
    rw [← hrun.run.id_eq hf] at hauth
    rw [hquorums, ← hrun.run.quorums_eq hf]
    exact ⟨below_of_step ht hbelow hs,
      (backed_of_step ht (hrun.authored hf ha) hbelow hexact hauth hs).1⟩

end Replica

/-- **Votes are counted exactly.** The inputs may be any, as long as no message carries a ballot of
the replica's own that it has not opened, or cites a proposal under one that it has not asked votes
for. Between two inputs no vote of the log has as many acknowledgements as are needed, and those
under the replica's own ballot are counted exactly: the replica itself, and whoever acknowledged the
slot under the ballot since the replica proposed it; acknowledgements under earlier ballots are not
among them. Whenever the replica announces a choice, it leads under the ballot, which is its own,
has proposed the command under it, and has counted exactly as many votes as are needed (`Backed`).
No slot is announced twice. And the replica goes on with every further input, unless a counter is at
its limit or no delay can be made. -/
theorem votes_counted_exactly {id : ReplicaId} {n : Nat} {config : Config} {source : ρ}
    {machine : σ} {fresh r : Replica ρ σ}
    (hstart : Replica.start id n config source machine = .ok fresh) (h : fresh.History seen r) :
    config.quorums n = .ok r.quorums ∧
    (∀ s e, r.log.Open s e → e.acks.size < r.quorums.phase2) ∧
    r.CountsExactly seen ∧
    (∀ now input r' out, input.Authentic id (effectsSeen seen) →
      r.step now input = .ok (r', out) →
      ∀ before after m, out = before ++ .broadcast (.commit m) :: after →
        Backed (seen ++ .given input :: before.map .did) m r') ∧
    (announcedSlots (effectsSeen seen)).Nodup ∧
    ∀ now input f, r.step now input = .error f →
      r.AtLimit input f := by
  have hf := Tidy.start hstart
  obtain ⟨inputs, hauthentic⟩ := h.authenticRun
  have hrun := hauthentic.run
  have ht := hrun.tidy hf
  have hempty : ∀ s e, ¬ fresh.log.Open s e := by
    obtain ⟨quorums, rfl⟩ := Replica.start_eq_ok hstart
    exact fun s e => Log.not_open_empty
  obtain ⟨hbelow, hexact⟩ := h.counts hf (.start hstart)
    (fun s e ho => absurd ho (hempty s e)) fun s e ho => absurd ho (hempty s e)
  refine ⟨?_, hbelow, hexact, fun now input r' out hauth hs before after m hout => ?_, ?_,
    fun now input f hs => atLimit_of_step ht hs⟩
  · rw [hrun.quorums_eq hf]
    exact Replica.quorums_of_start hstart
  · have hid : r.id = id := by
      rw [hrun.id_eq hf]
      obtain ⟨quorums, rfl⟩ := Replica.start_eq_ok hstart
      rfl
    have hauthored := hauthentic.authored hf (.start hstart)
    obtain ⟨-, hall⟩ := backed_of_step ht hauthored hbelow hexact (hid ▸ hauth) hs
    have hbacked := hall before after m hout
    rwa [List.append_assoc] at hbacked
  · have honce := hrun.moved (P := fun _ effects r => AnnouncedOnce effects r) hf
      ⟨List.nodup_nil, by simp [announcedSlots]⟩ (fun _ _ _ _ honce => honce)
      fun _ _ _ _ _ _ _ _ hmove honce => honce.move hmove
    exact honce.nodup

/-- Leads with its own promise, but needs the votes of all three replicas. -/
def eagerReplica : Replica Script Journal where
  id := 1
  quorums := ⟨3, 1, 3, by decide, by decide, by decide, by decide, by decide⟩
  log := .empty
  ballot := .zero
  active := false
  promises := .empty
  pending := []
  backoff := .idle (Config.backoff ⟨100, 100, some 1, some 3⟩)
  source := ⟨[]⟩
  machine := Journal.empty

/-- The acknowledgement of replica 2 is counted under the first ballot. After a preemption it is not
counted under the second one, before it comes again. -/
theorem votes_counted_exactly_reelected : ∃ (r r' : Replica Script Journal)
    (seen : List Observation) (rest : List Effect),
    r.step .zero (.message (.accepted ⟨⟨3, some 1⟩, 1, 2⟩)) =
      .ok (r', .broadcast (.commit ⟨⟨3, some 1⟩, 1, .client [65]⟩) :: rest) ∧
    r.quorums.phase2 = 3 ∧
    Backed (seen ++ [.given (.message (.accepted ⟨⟨3, some 1⟩, 1, 2⟩))])
      ⟨⟨3, some 1⟩, 1, .client [65]⟩ r' := by
  obtain ⟨r, effects, hrun, hauth, hphase2, hstep⟩ := Replica.AuthenticRun.exists_of_feed
    eagerReplica []
    [.request ⟨0, [65]⟩, .message (.accepted ⟨⟨1, some 1⟩, 1, 2⟩),
      .message (.prepare ⟨⟨2, some 3⟩, 1⟩), .elect, .message (.accepted ⟨⟨1, some 1⟩, 1, 2⟩),
      .message (.accepted ⟨⟨3, some 1⟩, 1, 3⟩)]
    (fun p => (Message.accepted ⟨⟨3, some 1⟩, 1, 2⟩).Authentic 1 p.2 ∧ p.1.quorums.phase2 = 3 ∧
      (p.1.step .zero (.message (.accepted ⟨⟨3, some 1⟩, 1, 2⟩))).toOption.any (fun q =>
        q.2.head? = some (.broadcast (.commit ⟨⟨3, some 1⟩, 1, .client [65]⟩))) = true)
    (by decide +kernel)
  have hstart : Replica.start 1 3 ⟨100, 100, some 1, some 3⟩ (⟨[]⟩ : Script) Journal.empty =
      .ok eagerReplica := rfl
  obtain ⟨seen, hhistory, rfl⟩ := hrun.exists_history
  obtain ⟨⟨r', out⟩, hq, hhead⟩ := (Option.any_eq_true _ _).mp hstep
  obtain ⟨rest, rfl⟩ := List.head?_eq_some_iff.mp (of_decide_eq_true hhead)
  have hs : r.step .zero (.message (.accepted ⟨⟨3, some 1⟩, 1, 2⟩)) =
      .ok (r', .broadcast (.commit ⟨⟨3, some 1⟩, 1, .client [65]⟩) :: rest) := by
    cases h : r.step .zero (.message (.accepted ⟨⟨3, some 1⟩, 1, 2⟩)) with
    | error f => rw [h] at hq; cases hq
    | ok q => rw [h] at hq; cases hq; rfl
  obtain ⟨-, -, -, hbacked, -⟩ := votes_counted_exactly hstart hhistory
  exact ⟨r, r', seen, rest, hs, hphase2,
    hbacked .zero (.message _) r' _ hauth hs [] rest _ rfl⟩

end PaxosLog
