import PaxosLog.Proofs.Network
import PaxosLog.Proofs.Random.Lawful
import PaxosLog.Proofs.Replica.Reach
import PaxosLog.Proofs.Replica.Rest

/-!
# A replica with headroom never fails

Rounds and slots are 64-bit numbers, and peers may name any of them. But a replica does not count
fast by itself: an input opens at most one ballot, and every new slot goes to a request that an
input brought, even though one input can propose the whole queue. So after `n` inputs no counter is
more than `n` above the largest number `M` that a message named (`Headroom`), and until the limit is
near every input is handled to its end.

* `Headroom.carry`, `Headroom.carries`: moves keep the counters within `M + n`.
* `Headroom.not_stuck`: within the limits nothing stops a replica.
* `Turn.Reproposes`: the loop of a take-over without a bound, which is what the bounded one amounts
  to.
* `handleAll_of_headroom`: inputs one after another.

**`never_faults`**: after any `K` inputs with `M + K` below the limit.
-/

namespace PaxosLog

/-- The rounds and slots that a message names. -/
def Message.numbers : Message → List UInt64
  | .prepare m => [m.ballot.round, m.start]
  | .promise m => m.ballot.round :: m.log.toList.flatMap fun (s, p) => [s, p.ballot.round]
  | .accept m => [m.ballot.round, m.slot]
  | .accepted m => [m.ballot.round, m.slot]
  | .commit m => [m.ballot.round, m.slot]

/-- No round or slot of the message is above `M`. -/
def Message.Within (M : Nat) (m : Message) : Prop := ∀ k ∈ m.numbers, k.toNat ≤ M

-- Over the list: an enumeration of all numbers of 64 bits would not end.
instance (M : Nat) (m : Message) : Decidable (m.Within M) := List.decidableBAll _ m.numbers

theorem Message.Within.round {M : Nat} {m : Message} (h : m.Within M) :
    m.ballot.round.toNat ≤ M := by
  cases m <;> exact h _ (by simp [Message.numbers, Message.ballot])

/-- The input is no message or one within `M`. -/
def Input.Within (M : Nat) : Input → Prop
  | .message m => m.Within M
  | _ => True

instance (M : Nat) : (input : Input) → Decidable (input.Within M)
  | .message m => inferInstanceAs (Decidable (m.Within M))
  | .request _ => isTrue trivial
  | .elect => isTrue trivial
  | .backoffElapsed => isTrue trivial

theorem Input.Within.slots {M : Nat} {input : Input} (h : input.Within M) :
    ∀ s ∈ input.slots, s.toNat ≤ M := by
  cases input with
  | message m =>
    refine fun s hs => h s ?_
    cases m with
    | promise m =>
      obtain ⟨x, hx, rfl⟩ := List.mem_map.mp hs
      exact List.mem_cons_of_mem _ (List.mem_flatMap.mpr ⟨x, hx, .head _⟩)
    | accept m => exact .tail _ hs
    | commit m => exact .tail _ hs
    | _ => cases hs
  | _ => exact fun _ hs => nomatch hs

/-- A replica with the requests `hand` in hand has counted at most `n` times from the numbers up to
`M`: once for every ballot that it opened, and once for every request that has a slot. -/
structure Headroom {ρ σ : Type} (M n : Nat) (r : Replica ρ σ) (hand : List ClientRequest) : Prop
    extends Reach M n r hand where
  round : r.ballot.round.toNat ≤ M + n

variable {ρ σ : Type} [RandomSource ρ] [StateMachine σ]

section Moves

variable {before : Replica ρ σ} {input : Input} {t t' : Turn ρ σ} {M N : Nat}

/-- The round rises by one when a ballot is opened, and otherwise to one that a message named. -/
theorem Move.round_le (h : Move before input t t') (hinput : input.Within M)
    (hbefore : before.ballot.round.toNat + 1 ≤ N) (hM : M ≤ N)
    (ht : t.ballot.round.toNat ≤ N) : t'.ballot.round.toNat ≤ N := by
  cases h with
  | elect ballot hlog ha hn hi hb =>
    have hround := Ballot.round_of_next hn
    rw [hb] at hround
    show ballot.round.toNat ≤ N
    omega
  | execute t' e hs hc h => rw [(execute_same h).2.2.1]; exact ht
  | follow m hi hm hlt =>
    subst hi
    exact Nat.le_trans (Message.Within.round hinput) hM
  | backOff t' h => rw [(backOff_same h).2.2.2.1]; exact ht
  | report m log displaced hi ha hle ho h =>
    subst hi
    exact Nat.le_trans (Message.Within.round hinput) hM
  | _ => exact ht

/-- The policy for delays stays. -/
theorem Move.policy_eq (h : Move before input t t') : t'.backoff.policy = t.backoff.policy := by
  cases h with
  | execute t' e hs hc h =>
    obtain ⟨_, _, _, -, rfl, -⟩ := Turn.executeEntry_eq_ok h
    rfl
  | backOff t' h =>
    rcases Turn.scheduleBackoff_cases h with ⟨-, rfl⟩ | ⟨-, delay, source, rfl⟩
    · rfl
    · rfl
  | _ => rfl

/-- The same of moves one after another. -/
theorem Move.moves_policy_eq (h : Moves before input t t') :
    t'.backoff.policy = t.backoff.policy := by
  induction h with
  | refl => rfl
  | tail _ hmove ih => exact hmove.policy_eq.trans ih

namespace Headroom

variable {n : Nat} {c c' : Turn ρ σ × List ClientRequest}

/-- **Every move keeps the counters within the limits** of the inputs so far. -/
theorem carry (h : Carry before input c c') (hinput : input.Within M)
    (hbefore : before.ballot.round.toNat + 1 ≤ M + n) (hc : Headroom M n c.1.toReplica c.2) :
    Headroom M n c'.1.toReplica c'.2 where
  toReach := hc.toReach.carry h hinput.slots
  round := h.move.round_le hinput hbefore (Nat.le_add_right M n) hc.round

theorem carries (h : Carries before input c c') (hinput : input.Within M)
    (hbefore : before.ballot.round.toNat + 1 ≤ M + n) (hc : Headroom M n c.1.toReplica c.2) :
    Headroom M n c'.1.toReplica c'.2 := by
  induction h with
  | refl => exact hc
  | tail _ hcarry ih => exact carry hcarry hinput hbefore ih

omit [StateMachine σ] in
/-- **Within the limits nothing stops a replica** but a delay that cannot be made. -/
theorem not_stuck (hc : Headroom M n c.1.toReplica c.2) (hroom : M + n < UInt64.size - 1)
    (ht : Tidy c.1.toReplica)
    (hdelay : ∃ delay, (before.backoff.policy.nextDelay before.source).1 = .ok delay) {f : Fault} :
    ¬ Stuck before input c.1 f := by
  have hlast : maxCounter.toNat = UInt64.size - 1 := rfl
  have hround := hc.round
  have hslots := hc.slots
  intro h
  cases h with
  | round hi ha hb h => rw [h] at hround; omega
  | slot ha h => rw [h] at hslots; omega
  | cursor e hs hcommitted h =>
    have hle := UInt64.le_iff_toNat_le.mp (ht.bounded _ e hs)
    rw [h] at hle
    omega
  | delay f hwhy h =>
    obtain ⟨delay, hok⟩ := hdelay
    rw [hok] at h
    cases h

end Headroom

end Moves

/-! ## Loops -/

namespace Turn

/-- The loop of a take-over without a bound: what the slots from `s` on hold is proposed again, up
to the slot that was the highest one at its beginning. -/
inductive Reproposes (highest : Slot) : Slot → Turn ρ σ → Turn ρ σ → Prop
  | stop (s : Slot) (t : Turn ρ σ) (h : highest < s) : Reproposes highest s t t
  | next {s s' : Slot} {t t₁ t' : Turn ρ σ} (h : s ≤ highest) (h₁ : t.repropose s = .ok t₁)
      (hs : s.next = .ok s') (h' : Reproposes highest s' t₁ t') : Reproposes highest s t t'

variable {t t' : Turn ρ σ}

omit [RandomSource ρ] in
/-- A take-over is not cut short by its bound. -/
theorem reproposes_of_reproposeFrom {count : Nat} {s highest : Slot}
    (hcount : count = highest.toNat + 1 - s.toNat) (h : t.reproposeFrom count s = .ok t') :
    Reproposes highest s t t' := by
  induction count generalizing t s with
  | zero =>
    cases h
    exact .stop s _ (by rw [UInt64.lt_iff_toNat_lt]; omega)
  | succ count ih =>
    unfold reproposeFrom at h
    obtain ⟨t₁, h₁, h⟩ := bind_eq_ok.mp h
    obtain ⟨s', hs', h₂⟩ := bind_eq_ok.mp h
    have hnext := toNat_of_checkedSucc hs'
    exact .next (by rw [UInt64.le_iff_toNat_le]; omega) h₁ hs' (ih (by omega) h₂)

/-- Both loops come to their end: that of execution whenever it begins, and that of a take-over
when a replica begins to lead. -/
structure LoopsEnd (before : Replica ρ σ) (t : Turn ρ σ) : Prop where
  executes : ∃ t', t.executeReady = .ok t' ∧ t.Executes t'
  reproposes : before.active = false → t.active = true → ∃ t',
    t.reproposeFrom t.log.span t.log.executeCursor = .ok t' ∧
      Reproposes t.log.highestSlot t.log.executeCursor t t'

end Turn

/-! ## Inputs one after another -/

namespace Replica

/-- Gives inputs to a replica one after another, each at its time. -/
def handleAll : List (Duration × Input) → Replica ρ σ → Except Fault (Replica ρ σ × List Effect)
  | [], r => .ok (r, [])
  | (now, input) :: rest, r => do
    let (r, out) ← r.step now input
    let (r, more) ← handleAll rest r
    return (r, out ++ more)

end Replica

/-- What holds between two inputs, `n` of which were handled, in a replica with the given policy for
delays. -/
structure Unexhausted (policy : BackoffPolicy) (M n : Nat) (r : Replica ρ σ) : Prop where
  tidy : Tidy r
  room : Headroom M n r []
  policy : r.backoff.policy = policy

section Inputs

variable [LawfulSource ρ] {config : Config} {M n : Nat} {r : Replica ρ σ} {now : Duration}
  {input : Input}

namespace Unexhausted

omit [RandomSource ρ] [StateMachine σ] [LawfulSource ρ] in
/-- At the beginning of a step. -/
theorem begin (h : Unexhausted config.backoff M n r) (now : Duration) (input : Input) :
    Headroom M (n + 1) (Turn.toReplica { r with now, effects := [] }) input.requests := by
  have hround := h.room.round
  have hheld := h.room.held
  have hslots := h.room.slots
  have hhand : input.requests.length ≤ 1 := by cases input <;> simp [Input.requests]
  simp only [List.length_nil] at hheld hslots
  refine ⟨⟨?_, ?_⟩, ?_⟩ <;> simp only <;> omega

/-- Nothing stops the step of an input within the limits. -/
theorem not_stops (h : Unexhausted config.backoff M n r) (hinput : input.Within M)
    (hroom : M + (n + 1) < UInt64.size - 1) {c : Turn ρ σ × List ClientRequest}
    (hc : Carries r input ({ r with now, effects := [] }, input.requests) c) {f : Fault} :
    ¬ Stops r input c f := by
  rintro ⟨c', hc', hstuck⟩
  have hall := hc.trans hc'
  have hround := h.room.round
  have hdelay : ∃ delay, (r.backoff.policy.nextDelay r.source).1 = .ok delay := by
    rw [h.policy]
    exact config.exists_nextDelay r.source
  exact (Headroom.carries hall hinput (by omega) (h.begin now input)).not_stuck hroom
    (h.tidy.moves (Carries.moves hall)) hdelay hstuck

/-- **A step comes to its end**, and leaves the replica unexhausted. -/
theorem step (h : Unexhausted config.backoff M n r) (hinput : input.Within M)
    (hroom : M + (n + 1) < UInt64.size - 1) (now : Duration) :
    ∃ r' out, r.step now input = .ok (r', out) ∧ Unexhausted config.backoff M (n + 1) r' := by
  cases hs : r.step now input with
  | error f => exact absurd (stops_of_step h.tidy hs) (h.not_stops hinput hroom .refl)
  | ok p =>
    obtain ⟨r', out⟩ := p
    refine ⟨r', out, rfl, ?_⟩
    obtain ⟨t, hc, rfl, -⟩ := carries_of_step (fun ha => (h.tidy.lead ha).1) hs
    have hround := h.room.round
    refine ⟨h.tidy.moves hc.moves, ?_, ?_⟩
    · exact Headroom.carries hc hinput (by omega) (h.begin now input)
    · exact (Move.moves_policy_eq hc.moves).trans h.policy

/-- **Every loop of the step comes to its end.** -/
theorem loopsEnd (h : Unexhausted config.backoff M n r) (hinput : input.Within M)
    (hroom : M + (n + 1) < UInt64.size - 1) {t : Turn ρ σ} {hand : List ClientRequest}
    (hc : Carries r input ({ r with now, effects := [] }, input.requests) (t, hand)) :
    t.LoopsEnd r := by
  have ht : Tidy t.toReplica := h.tidy.moves hc.moves
  refine ⟨?_, fun hnew ha => ?_⟩
  · cases hx : t.executeReady with
    | error f => exact absurd (Turn.stops_executeReady hx) (h.not_stops hinput hroom hc)
    | ok t' =>
      exact ⟨t', rfl, Turn.executes_of_executeUpTo ht.bounded (Nat.le_refl _) hx⟩
  · cases hx : t.reproposeFrom t.log.span t.log.executeCursor with
    | error f =>
      exact absurd (Turn.stops_reproposeFrom hnew ha (ht.lead ha).1 (Nat.le_refl _) hx)
        (h.not_stops hinput hroom hc)
    | ok t' => exact ⟨t', rfl, Turn.reproposes_of_reproposeFrom rfl hx⟩

end Unexhausted

/-- **Inputs within the limits are handled to their ends**, one after another. -/
theorem handleAll_of_headroom {timed : List (Duration × Input)}
    (h : Unexhausted config.backoff M n r)
    (hinputs : ∀ x ∈ timed, x.2.Within M) (hroom : M + (n + timed.length) < UInt64.size - 1) :
    ∃ r' effects, Replica.handleAll timed r = .ok (r', effects) ∧
      Unexhausted config.backoff M (n + timed.length) r' := by
  induction timed generalizing r n with
  | nil => exact ⟨r, [], rfl, h⟩
  | cons x rest ih =>
    obtain ⟨now, input⟩ := x
    obtain ⟨hinput, hrest⟩ := List.forall_mem_cons.mp hinputs
    rw [List.length_cons] at hroom ⊢
    obtain ⟨r₁, out, hs, h₁⟩ := h.step hinput (by omega) now
    obtain ⟨r', more, hmore, h'⟩ := ih h₁ hrest (by omega)
    refine ⟨r', out ++ more, ?_, ?_⟩
    · rw [Replica.handleAll, hs]
      show Replica.handleAll rest r₁ >>= _ = _
      rw [hmore]
      rfl
    · rwa [Nat.add_assoc, Nat.add_comm 1] at h'

omit [RandomSource ρ] [StateMachine σ] [LawfulSource ρ] in
/-- A replica starts with all counters at their lowest. -/
theorem Unexhausted.start {id : ReplicaId} {size : Nat} {source : ρ} {machine : σ}
    (h : Replica.start id size config source machine = .ok r) (M : Nat) :
    Unexhausted config.backoff M 0 r := by
  refine ⟨Tidy.start h, ?_, ?_⟩
  · obtain ⟨quorums, rfl⟩ := Replica.start_eq_ok h
    exact ⟨⟨Nat.le_refl _, Nat.zero_le _⟩, Nat.zero_le _⟩
  · obtain ⟨quorums, rfl⟩ := Replica.start_eq_ok h
    rfl

/-- **A replica with headroom never fails.** Let a replica be given `K` inputs, whatever they are,
with no round or slot above `M` in their messages, and `M + K` below the limit of counters. Then
every input is handled to its end, after those before it: no round, slot or duration passes its
limit, no number is drawn from an empty range, which a lawful source refuses, no new entry goes to a
slot that holds one, nothing chosen is replaced or proposed again, and only a leader proposes. The
thresholds that the replica asks for do not exceed the cluster, and wherever a step stands, the
loops of execution and of a take-over come to their ends. -/
theorem never_faults {id : ReplicaId} {size : Nat} {source : ρ} {machine : σ}
    {fresh : Replica ρ σ} (hstart : Replica.start id size config source machine = .ok fresh)
    {timed : List (Duration × Input)} (hinputs : ∀ x ∈ timed, x.2.Within M)
    (hroom : M + timed.length < UInt64.size - 1) {earlier later : List (Duration × Input)}
    (hsplit : timed = earlier ++ later) :
    ∃ r effects, Replica.handleAll earlier fresh = .ok (r, effects) ∧
      (∀ q : Quorum,
        (∃ b, q.thresholdReached r.quorums.clusterSize r.quorums.phase1 = .ok b) ∧
        ∃ b, q.thresholdReached r.quorums.clusterSize r.quorums.phase2 = .ok b) ∧
      ∀ now input rest t hand, later = (now, input) :: rest →
        Carries r input ({ r with now, effects := [] }, input.requests) (t, hand) →
          t.LoopsEnd r := by
  subst hsplit
  rw [List.length_append] at hroom
  obtain ⟨r, effects, hr, hroomy⟩ := handleAll_of_headroom (Unexhausted.start hstart M)
    (fun x hx => hinputs x (List.mem_append_left _ hx)) (by omega)
  refine ⟨r, effects, hr, fun q => ⟨⟨_, r.quorums.thresholdReached_phase1 q⟩,
    ⟨_, r.quorums.thresholdReached_phase2 q⟩⟩, fun now input rest t hand hlater hc => ?_⟩
  subst hlater
  rw [List.length_cons] at hroom
  exact hroomy.loopsEnd (hinputs (now, input) (by simp)) (by omega) hc

/-- Replica 1 is asked to vote for a slot and under a ballot close to the limit, and has to open a
ballot above it for a request of its own. -/
theorem never_faults_close_to_limit : ∃ r effects, Replica.handleAll
    [(.zero, .message (.accept ⟨⟨0xfffffffffffffff0, some 2⟩, 0xfffffffffffffff3, .client [65]⟩)),
      (.zero, .request ⟨0, [66]⟩), (.zero, .backoffElapsed)] (Network.trio.replica 1) =
    .ok (r, effects) := by
  have hstart : Replica.start 1 3 .standard (⟨[]⟩ : Script) Journal.empty =
      .ok (Network.trio.replica 1) := rfl
  have hinputs : ∀ x ∈ ([(.zero, .message (.accept
        ⟨⟨0xfffffffffffffff0, some 2⟩, 0xfffffffffffffff3, .client [65]⟩)),
      (.zero, .request ⟨0, [66]⟩), (.zero, .backoffElapsed)] : List (Duration × Input)),
      x.2.Within 0xfffffffffffffff3 := by
    decide
  obtain ⟨r, effects, hr, -⟩ :=
    never_faults hstart hinputs (by decide) (List.append_nil _).symm
  exact ⟨r, effects, hr⟩

end Inputs

end PaxosLog
