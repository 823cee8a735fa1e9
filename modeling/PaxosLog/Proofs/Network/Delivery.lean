import PaxosLog.Proofs.Network.Herald
import PaxosLog.Proofs.Network.Member
import PaxosLog.Proofs.Replica.Delay

/-!
# Messages and delays under way

`underWay` lists the messages to a member that were sent and not delivered since; what is not on the
list was delivered by a step that came later (`delivered_of_underWay`).

* **`Steps.still`**: what moves of a replica keep as long as its ballot stays, runs keep between two
  times at which it holds the same ballot.
* **`Reachable.delays`**: a replica that waits for the end of a delay has asked for one that is
  still to pass.
-/

namespace PaxosLog

variable {ρ σ : Type}

/-- The messages that the step sends to `q`. -/
def Occurrence.messagesTo (o : Occurrence ρ σ) (q : ReplicaId) : List Message :=
  o.effects.filterMap fun
    | .send receiver m => if receiver = q then some m else none
    | .broadcast m => if q = o.id then none else some m
    | _ => none

theorem Occurrence.mem_messagesTo {o : Occurrence ρ σ} {q : ReplicaId} {m : Message} :
    m ∈ o.messagesTo q ↔ o.Sends q m := by
  unfold messagesTo Sends
  rw [List.mem_filterMap]
  constructor
  · rintro ⟨x, hx, hm⟩
    cases x with
    | send receiver m' =>
      by_cases hr : receiver = q
      · simp only [hr, if_true, Option.some.injEq] at hm
        exact .inl (hr ▸ hm ▸ hx)
      · simp [hr] at hm
    | broadcast m' =>
      by_cases hq : q = o.id
      · simp [hq] at hm
      · simp only [hq, if_false, Option.some.injEq] at hm
        exact .inr ⟨hq, hm ▸ hx⟩
    | _ => cases hm
  · rintro (hx | ⟨hne, hx⟩)
    · exact ⟨_, hx, if_pos rfl⟩
    · exact ⟨_, hx, if_neg hne⟩

namespace Network

/-- The messages to `q` that were sent in `past` and not delivered since. A delivery is one of all
equal messages that were sent before it. -/
def underWay (q : ReplicaId) : (past : List (Occurrence ρ σ)) → List Message
  | [] => []
  | o :: earlier =>
    o.messagesTo q ++
      (underWay q earlier).filter fun m => ¬ (o.id = q ∧ o.input = .message m)

/-- A message stays under way until it is delivered. -/
theorem delivered_of_underWay {q : ReplicaId} {m : Message} {later earlier : List (Occurrence ρ σ)}
    (hm : m ∈ underWay q earlier) (hgone : m ∉ underWay q (later ++ earlier)) :
    ∃ newer d older, later = newer ++ d :: older ∧ d.id = q ∧ d.input = .message m := by
  induction later with
  | nil => exact absurd hm hgone
  | cons d later ih =>
    by_cases hstill : m ∈ underWay q (later ++ earlier)
    · have hout : ¬ ¬ (d.id = q ∧ d.input = .message m) := by
        intro hother
        exact hgone (List.mem_append_right _ (List.mem_filter.mpr ⟨hstill, decide_eq_true hother⟩))
      exact ⟨[], d, later, rfl, Decidable.not_not.mp hout⟩
    · obtain ⟨newer, d', older, rfl, hd⟩ := ih hstill
      exact ⟨d :: newer, d', older, rfl, hd⟩

/-- The delays that `p` asked for. -/
def delaysOf (net : Network ρ σ) (p : ReplicaId) : Nat :=
  (net.effectsOf p).countP Effect.isAlarm

/-- The delays of `p` that have passed. -/
def elapsedOf (net : Network ρ σ) (p : ReplicaId) : Nat :=
  (net.inputsOf p).count .backoffElapsed

/-- A delay can pass if one was asked for that has not. -/
theorem possible_backoffElapsed {net : Network ρ σ} {p : ReplicaId} :
    net.Possible p .backoffElapsed ↔ net.elapsedOf p < net.delaysOf p := by
  unfold Possible elapsedOf delaysOf inputsOf effectsOf
  rw [List.map_reverse, List.count_reverse, List.count, List.countP_map, List.countP_filter,
    List.countP_flatMap, List.countP_flatMap, List.map_reverse, List.sum_reverse]
  refine iff_of_eq (congrArg (· < _) (List.countP_congr fun o _ => ?_))
  simp [and_comm]

end Network

variable [RandomSource ρ] [StateMachine σ]

namespace Network

variable {spec : QuorumSpec} {net net' : Network ρ σ} {p : ReplicaId}

/-! ## What stays with the ballot -/

theorem Taken.ballot_le {o : Occurrence ρ σ} (h : Taken spec net o) :
    o.before.ballot ≤ o.after.ballot := by
  obtain ⟨now, t, hmoves, hr, -⟩ := h.moves
  rw [← hr]
  exact (accepted_of_moves hmoves).2.1

/-- What moves keep as long as the ballot stays, a step keeps that leaves the ballot. -/
theorem Taken.still {P : Replica ρ σ → Prop}
    (hkeep : ∀ before input t t', Move before input t t' → t'.ballot = t.ballot → P before →
      P t.toReplica → P t'.toReplica) {o : Occurrence ρ σ} (h : Taken spec net o)
    (hb : o.after.ballot = o.before.ballot) (hp : P o.before) : P o.after := by
  obtain ⟨now, t, hmoves, hr, -⟩ := h.moves
  rw [← hr] at hb ⊢
  clear hr
  induction hmoves with
  | refl => exact hp
  | @tail t₁ t₂ hmoves hmove ih =>
    have hle := (accepted_of_moves hmoves).2.1
    have hle₁ := hmove.ballot_le
    have hb₁ : t₁.ballot = o.before.ballot := Std.le_antisymm (hb ▸ hle₁) hle
    exact hkeep _ _ _ _ hmove (hb.trans hb₁.symm) hp (ih hb₁)

/-- Ballots only rise. -/
theorem Steps.ballot_le (hs : Steps net net') (hr : Reachable spec net) (p : ReplicaId) :
    (net.replica p).ballot ≤ (net'.replica p).ballot := by
  induction hs with
  | refl => exact Std.le_refl _
  | @tail net₁ _ hs hstep ih =>
    obtain ⟨id, input, now, after, effects, hid, hpos, hstep⟩ := hstep
    have htaken : Taken spec net₁ ⟨id, input, net₁.replica id, after, effects⟩ :=
      ⟨hr.steps hs, hid, rfl, hpos, now, hstep⟩
    by_cases heq : p = id
    · subst heq
      rw [net₁.replica_record_self]
      exact Std.le_trans ih htaken.ballot_le
    · rw [net₁.replica_record_ne heq]
      exact ih

/-- **What moves keep as long as the ballot stays**, runs keep between two times at which the
replica holds the same ballot. -/
theorem Steps.still {P : Replica ρ σ → Prop}
    (hkeep : ∀ before input t t', Move before input t t' → t'.ballot = t.ballot → P before →
      P t.toReplica → P t'.toReplica) (hs : Steps net net') (hr : Reachable spec net)
    (hb : (net'.replica p).ballot = (net.replica p).ballot) (hp : P (net.replica p)) :
    P (net'.replica p) := by
  induction hs with
  | refl => exact hp
  | @tail net₁ _ hs hstep ih =>
    -- ballots only rise, so in between it was the same one
    have hle := Steps.ballot_le hs hr p
    have hle₁ := Steps.ballot_le (.single hstep) (hr.steps hs) p
    have hb₁ : (net₁.replica p).ballot = (net.replica p).ballot := Std.le_antisymm (hb ▸ hle₁) hle
    have hp₁ := ih hb₁
    obtain ⟨id, input, now, after, effects, hid, hpos, hstep⟩ := hstep
    have htaken : Taken spec net₁ ⟨id, input, net₁.replica id, after, effects⟩ :=
      ⟨hr.steps hs, hid, rfl, hpos, now, hstep⟩
    by_cases heq : p = id
    · subst heq
      rw [net₁.replica_record_self] at hb ⊢
      exact htaken.still hkeep (hb.trans hb₁.symm) hp₁
    · rw [net₁.replica_record_ne heq]
      exact hp₁

theorem Taken.active {o : Occurrence ρ σ} (h : Taken spec net o)
    (hb : o.after.ballot = o.before.ballot) (ha : o.before.active = true) :
    o.after.active = true :=
  h.still (P := fun r => r.active = true)
    (fun _ _ _ _ hmove hsame _ ha => hmove.active_kept ha hsame) hb ha

/-- A leader leads as long as it holds its ballot. -/
theorem Steps.active (hs : Steps net net') (hr : Reachable spec net)
    (hb : (net'.replica p).ballot = (net.replica p).ballot)
    (ha : (net.replica p).active = true) : (net'.replica p).active = true :=
  hs.still (P := fun r => r.active = true)
    (fun _ _ _ _ hmove hsame _ ha => hmove.active_kept ha hsame) hr hb ha

/-- A promise counts as long as the candidate holds its ballot. -/
theorem Steps.promises (hs : Steps net net') (hr : Reachable spec net)
    (hb : (net'.replica p).ballot = (net.replica p).ballot) {r : ReplicaId}
    (hp : r ∈ (net.replica p).promises.voters) : r ∈ (net'.replica p).promises.voters := by
  refine hs.still (P := fun replica => r ∈ replica.promises.voters)
    (fun before input t t' hmove hsame _ hp => ?_) hr hb hp
  rcases hmove.promises_cases with ⟨hsame', -⟩ | ⟨-, -, -, hlt, -⟩ | ⟨m, -, hmore, -⟩
  · rw [hsame']; exact hp
  · rw [hsame] at hlt
    exact absurd hlt Std.lt_irrefl
  · rw [hmore]; exact Quorum.mem_ack.mpr (.inl hp)

/-- A vote counts as long as the leader holds its ballot. -/
theorem Steps.credits (hs : Steps net net') (hr : Reachable spec net)
    (hb : (net'.replica p).ballot = (net.replica p).ballot)
    (ha : (net.replica p).active = true) {s : Slot} {b : Ballot} {r : ReplicaId}
    (hcredits : (net.replica p).log.Credits s b r) : (net'.replica p).log.Credits s b r :=
  (hs.still (P := fun replica => replica.active = true ∧ replica.log.Credits s b r)
    (fun _ _ _ _ hmove hsame hbefore ht =>
      ⟨hmove.active_kept ht.1 hsame, hmove.credits hbefore.1 ht.2⟩) hr hb ⟨ha, hcredits⟩).2

/-! ## Members between two inputs -/

theorem Reachable.rested (hr : Reachable spec net) (hp : p ∈ net.members) :
    Rested (net.replica p) := by
  obtain ⟨n, config, source, machine, fresh, hstart, hrun⟩ := hr.run p hp
  exact hrun.rested (.start hstart) (.start hstart)

/-- Nobody speaks in the name of a member, so all members are dutiful. -/
theorem Reachable.dutiful (hr : Reachable spec net) :
    ∀ p ∈ net.members, Dutiful (net.replica p) := by
  refine hr.induction (P := fun net => ∀ p ∈ net.members, Dutiful (net.replica p)) ?_ ?_
  · intro net hf p hp
    obtain ⟨config, -, hstart⟩ := hf.started
    obtain ⟨source, machine, hs⟩ := hstart p hp
    exact .start hs
  · intro net o htaken ih p hp
    by_cases heq : p = o.id
    · subst heq
      rw [net.replica_record_self]
      obtain ⟨now, hstep⟩ := htaken.step
      have hd := ih o.id htaken.member
      rw [← htaken.before] at hd
      refine dutiful_of_step htaken.tidy hd (fun m hi hm hlt howner => ?_)
        (fun m hi howner => ?_) hstep
      · -- whoever sent a ballot of the member had it from the member, which holds it since
        obtain ⟨q, hs⟩ := htaken.heard hi
        rw [htaken.id_eq] at howner
        have hle := (htaken.sound.orderly.carried q o.id m hs hm o.id howner).2
        change m.ballot ≤ (net.replica o.id).ballot at hle
        rw [← htaken.before] at hle
        exact absurd (Std.lt_of_lt_of_le hlt hle) Std.lt_irrefl
      · -- and nobody asks itself for a vote
        obtain ⟨q, hs⟩ := htaken.heard hi
        obtain ⟨hne, i, hd⟩ := htaken.sound.orderly.broadcast_accept hs
        have hq := htaken.sound.voting.owner _ _ _ _ _ hd
        rw [howner, htaken.id_eq, Option.some_inj] at hq
        exact hne hq
    · rw [net.replica_record_ne heq]
      exact ih p hp

/-! ## Delays -/

theorem Taken.delays {o : Occurrence ρ σ} (h : Taken spec net o) :
    o.after.backoff.inFlight.toNat ≤
      o.before.backoff.inFlight.toNat + o.effects.countP Effect.isAlarm := by
  obtain ⟨now, hstep⟩ := h.step
  exact delays_of_step h.tidy hstep

/-- After the end of a delay none is outstanding. -/
theorem Taken.fired {o : Occurrence ρ σ} (h : Taken spec net o) (hi : o.input = .backoffElapsed) :
    o.after.backoff.inFlight = false := by
  obtain ⟨now, hstep⟩ := h.step
  rw [hi] at hstep
  exact fired_of_step hstep

/-- **A replica that waits for the end of a delay** has asked for one that is still to pass. -/
theorem Reachable.delays (hr : Reachable spec net) : ∀ p ∈ net.members,
    net.elapsedOf p + (net.replica p).backoff.inFlight.toNat ≤ net.delaysOf p := by
  refine hr.induction (P := fun net => ∀ p ∈ net.members,
    net.elapsedOf p + (net.replica p).backoff.inFlight.toNat ≤ net.delaysOf p) ?_ ?_
  · intro net hf p hp
    obtain ⟨config, hq, hstart⟩ := hf.started
    obtain ⟨source, machine, hs⟩ := hstart p hp
    rw [Replica.start, hq] at hs
    have hidle : (net.replica p).backoff.inFlight = false := by
      rw [← Except.ok.inj hs]
      rfl
    simp [elapsedOf, inputsOf, hf.past, hidle]
  · intro net o htaken ih p hp
    have hold := ih p hp
    unfold elapsedOf delaysOf at hold ⊢
    rw [inputsOf_record, effectsOf_record, List.count_append, List.countP_append]
    by_cases heq : o.id = p
    · subst heq
      rw [if_pos rfl, if_pos rfl, net.replica_record_self]
      have hdelays := htaken.delays
      rw [htaken.before] at hdelays
      by_cases hi : o.input = .backoffElapsed
      · have hpos := htaken.possible
        rw [hi, possible_backoffElapsed] at hpos
        unfold elapsedOf delaysOf at hpos
        rw [htaken.fired hi, hi, List.count_singleton_self, Bool.toNat_false]
        omega
      · rw [List.count_singleton, beq_false_of_ne hi]
        simp only [Bool.false_eq_true, if_false]
        omega
    · rw [if_neg heq, if_neg heq, net.replica_record_ne (Ne.symm heq)]
      simpa using hold

end Network

end PaxosLog
