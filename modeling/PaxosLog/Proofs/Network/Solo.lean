import PaxosLog.Proofs.Network.Choosing
import PaxosLog.Proofs.Network.Delivery
import PaxosLog.Proofs.Replica.Follower
import PaxosLog.Proofs.Replica.Ledger

/-!
# Runs with one proposer

If requests and calls for an election come to one replica only, all others follow it. It is then
never disturbed, for whatever it hears answers a message of its own, and the others hear nothing but
what it broadcasts.

* `Solo.undisturbed`, `Solo.input_from`: what the proposer and the others can be given.
* `Solo.due_of_asked`, `Solo.due_of_announced`, `Solo.due_of_chosen`: what is proposed, announced
  and taken as chosen is the request that has its place at the slot.
* `Solo.no_alarm`: nobody asks for a delay.

**`Reachable.solo`**: this holds throughout the run.
-/

namespace PaxosLog.Network

variable {ρ σ : Type} {net : Network ρ σ} {p q : ReplicaId}

/-- No other replica than `p` was given a request or told to start an election. -/
def SoleProposer (net : Network ρ σ) (p : ReplicaId) : Prop :=
  ∀ o ∈ net.past, o.id ≠ p → o.input.requests = [] ∧ o.input ≠ .elect

instance (net : Network ρ σ) (p : ReplicaId) : Decidable (net.SoleProposer p) :=
  inferInstanceAs (Decidable (∀ o ∈ net.past, _))

/-- The requests that `p` was given so far, in order. -/
def submittedTo (net : Network ρ σ) (p : ReplicaId) : List ClientRequest :=
  (net.inputsOf p).flatMap Input.requests

theorem submittedTo_record (net : Network ρ σ) (o : Occurrence ρ σ) (p : ReplicaId) :
    (net.record o).submittedTo p =
      net.submittedTo p ++ if o.id = p then o.input.requests else [] := by
  unfold submittedTo
  rw [inputsOf_record, List.flatMap_append]
  split <;> simp

/-- `p` keeps its ledger, and everybody else follows it. -/
structure Solo (net : Network ρ σ) (p : ReplicaId) (offered : List ClientRequest) : Prop where
  ledger : Ledger offered (net.submittedTo p) [] (net.effectsOf p) (net.replica p)
  follower : ∀ q ∈ net.members, q ≠ p → Follower p (net.replica q)
  reports : ∀ q ∈ net.members, q ≠ p → ∀ x ∈ net.effectsOf q, x.Reports p

variable [RandomSource ρ] [StateMachine σ] {spec : QuorumSpec} {offered : List ClientRequest}

namespace Solo

/-- An effect of `p` is about requests at their places, and one of another member is for `p`. -/
theorem effect_cases (h : Solo net p offered) (hr : Reachable spec net) {i : Input} {x : Effect}
    (hd : net.view.did q i x) : q = p ∧ x.InPlace offered ∨ q ≠ p ∧ x.Reports p := by
  have hq : q ∈ net.members := (hr.view (sound spec)).orderly.member q i x hd
  obtain ⟨o, ho, hid, -, hx⟩ := hd
  have hmem : x ∈ net.effectsOf q := mem_effectsOf.mpr ⟨o, ho, hid, hx⟩
  by_cases hqp : q = p
  · subst hqp
    exact .inl ⟨rfl, h.ledger.placed x hmem⟩
  · exact .inr ⟨hqp, h.reports q hq hqp x hmem⟩

/-- Only `p` broadcasts. -/
theorem broadcast (h : Solo net p offered) (hr : Reachable spec net) {i : Input} {m : Message}
    (hd : net.view.did q i (.broadcast m)) : q = p ∧ (Effect.broadcast m).InPlace offered := by
  rcases h.effect_cases hr hd with hp | ⟨-, hreports⟩
  · exact hp
  · exact hreports.elim

/-- Messages go from `p` to everybody else, and from there to `p`. -/
theorem sent_cases (h : Solo net p offered) (hr : Reachable spec net) {a b : ReplicaId}
    {m : Message} (hs : net.view.Sent a b m) :
    a = p ∧ b ≠ p ∧ (∃ i, net.view.did p i (.broadcast m)) ∨
      a ≠ p ∧ b = p ∧ ∃ i, net.view.did a i (.send p m) := by
  obtain ⟨i, hd | ⟨hne, hd⟩⟩ := hs
  · rcases h.effect_cases hr hd with ⟨-, hplaced⟩ | ⟨hap, hreports⟩
    · exact hplaced.elim
    · have hbp : b = p := hreports
      subst hbp
      exact .inr ⟨hap, rfl, i, hd⟩
  · obtain ⟨rfl, -⟩ := h.broadcast hr hd
    exact .inl ⟨rfl, hne, i, hd⟩

/-- Every ballot that was opened is one of `p`, which has reached it. -/
theorem ballot_le (h : Solo net p offered) (hr : Reachable spec net) {b : Ballot}
    (hb : net.view.Opened b) : b ≤ (net.replica p).ballot := by
  rcases hb with rfl | ⟨q, i, k, hd⟩
  · exact Ballot.zero_le _
  · obtain ⟨rfl, -⟩ := h.broadcast hr hd
    exact ((hr.view (sound spec)).backing.opened q i b k hd).2.1

/-- What votes were asked for is due. -/
theorem due_of_asked (h : Solo net p offered) (hr : Reachable spec net) {b : Ballot} {s : Slot}
    {c : Command} (hasked : net.view.Asked b s c) : Due offered s c := by
  obtain ⟨q, i, hd⟩ := hasked
  exact (h.broadcast hr hd).2

/-- What was announced is due. -/
theorem due_of_announced (h : Solo net p offered) (hr : Reachable spec net) {s : Slot} {c : Command}
    (hannounced : net.view.Announced s c) : Due offered s c := by
  obtain ⟨q, i, b, hd⟩ := hannounced
  exact (h.broadcast hr hd).2

/-- What a member takes as chosen is due. -/
theorem due_of_chosen (h : Solo net p offered) (hr : Reachable spec net) (hq : q ∈ net.members)
    {s : Slot} {e : LogEntry} (hfirst : Slot.first ≤ s) (he : (net.replica q).log.get? s = some e)
    (hc : e.isCommitted = true) : Due offered s e.command := by
  rcases (hr.view (choosing spec)).2.entry q hq s e he hc with rfl | hannounced
  · exact absurd hfirst (by decide)
  · exact h.due_of_announced hr hannounced

/-- A promise that comes before `p` leads reports nothing: nothing was proposed. -/
theorem silent (h : Solo net p offered) (hr : Reachable spec net)
    (ha : (net.replica p).active = false) {a b : ReplicaId} {m : Promise}
    (hs : net.view.Sent a b (.promise m)) {s : Slot} {e : PromisedEntry}
    (he : m.log[s]? = some e) : s = Slot.sentinel := by
  have hnothing : ¬ Due offered s e.command := by
    rw [h.ledger.waiting ha]
    rintro ⟨r, ⟨-, hplace⟩, -⟩
    cases hplace
  cases hc : e.committed with
  | true =>
    refine ((hr.view (choosing spec)).2.reported a b m hs s e he hc).resolve_right fun hann => ?_
    exact hnothing (h.due_of_announced hr hann)
  | false =>
    have hasked := (hr.view (sound spec)).voting.reported a b m hs s e he hc
    exact absurd (h.due_of_asked hr hasked) hnothing

/-- **Nobody asks for a delay**, and nobody hands a request back. -/
theorem no_alarm (h : Solo net p offered) (hr : Reachable spec net) {o : Occurrence ρ σ}
    (ho : o ∈ net.past) {x : Effect} (hx : x ∈ o.effects) :
    x.isAlarm = false ∧ ∀ r, x ≠ .retry r := by
  have hd : net.view.did o.id o.input x := ⟨o, ho, rfl, rfl, hx⟩
  rcases h.effect_cases hr hd with ⟨-, hplaced⟩ | ⟨-, hreports⟩
  · cases x with
    | retry r => exact hplaced.elim
    | scheduleElection d => exact hplaced.elim
    | _ => exact ⟨rfl, by simp⟩
  · cases x with
    | retry r => exact hreports.elim
    | scheduleElection d => exact hreports.elim
    | _ => exact ⟨rfl, by simp⟩

theorem not_possible_backoffElapsed (h : Solo net p offered) (hr : Reachable spec net) :
    ¬ net.Possible q .backoffElapsed := by
  rw [possible_backoffElapsed]
  have hnone : net.delaysOf q = 0 := by
    refine List.countP_eq_zero.mpr fun x hx => ?_
    obtain ⟨o, ho, -, hx⟩ := mem_effectsOf.mp hx
    rw [(h.no_alarm hr ho hx).1]
    simp
  rw [hnone]
  exact Nat.not_lt_zero _

/-- **What `p` can be given** comes from no competitor. -/
theorem undisturbed (h : Solo net p offered) (hr : Reachable spec net) {input : Input}
    (hpos : net.Possible p input) : Undisturbed (net.replica p) input := by
  cases input with
  | request r => exact .request r
  | elect => exact .elect
  | backoffElapsed => exact absurd hpos (h.not_possible_backoffElapsed hr)
  | message m =>
    obtain ⟨a, hs⟩ := Sent.view hpos
    rcases h.sent_cases hr hs with ⟨-, hne, -⟩ | ⟨hap, -, i, hd⟩
    · exact absurd rfl hne
    · have hopened := (hr.view (heralded spec)).2.carried a p m hs
      have hproper := (hr.view (sound spec)).orderly.proper a i _ hd
      cases m with
      | promise m =>
        exact .promise m (h.ballot_le hr (hopened (by simp))) fun ha s e he => h.silent hr ha hs he
      | accepted m => exact .accepted m (h.ballot_le hr (hopened (by simp)))
      | _ => exact hproper.elim

/-- **What another member can be given** comes from `p`. -/
theorem input_from (h : Solo net p offered) (hr : Reachable spec net) (hne : q ≠ p) {input : Input}
    (hpos : net.Possible q input) (hrequest : input.requests = []) (helect : input ≠ .elect) :
    input.From p := by
  cases input with
  | request r => cases hrequest
  | elect => exact absurd rfl helect
  | backoffElapsed => exact absurd hpos (h.not_possible_backoffElapsed hr)
  | message m =>
    obtain ⟨a, hs⟩ := Sent.view hpos
    rcases h.sent_cases hr hs with ⟨-, -, i, hd⟩ | ⟨-, hqp, -⟩
    · have hsound := hr.view (sound spec)
      have hproper := hsound.orderly.proper p i _ hd
      cases m with
      | prepare m => exact .prepare m (hsound.backing.opened p i _ _ hd).1
      | accept m => exact .accept m (hsound.voting.owner p i _ _ _ hd)
      | commit m => exact .commit m
      | _ => exact hproper.elim
    · exact absurd hqp hne

/-! ## The run -/

omit [RandomSource ρ] [StateMachine σ] in
theorem fresh (hf : Fresh spec net) (hp : p ∈ net.members) : Solo net p [] := by
  obtain ⟨config, -, hstart⟩ := hf.started
  have hnothing : ∀ q, net.effectsOf q = [] := fun q => by rw [effectsOf, hf.past]; rfl
  have hsubmitted : net.submittedTo p = [] := by rw [submittedTo, inputsOf, hf.past]; rfl
  refine ⟨?_, fun q hq _ => ?_, fun q _ _ x hx => by rw [hnothing] at hx; cases hx⟩
  · obtain ⟨source, machine, hs⟩ := hstart p hp
    rw [hnothing, hsubmitted]
    exact .start hs
  · obtain ⟨source, machine, hs⟩ := hstart q hq
    exact .start hs

/-- The proposer keeps its ledger in a step. -/
theorem ledger_step (h : Solo net p offered) {o : Occurrence ρ σ} (htaken : Taken spec net o)
    (hid : o.id = p) : ∃ offered', Ledger offered' (net.submittedTo p ++ o.input.requests) []
      (net.effectsOf p ++ o.effects) o.after := by
  subst hid
  have hin := h.undisturbed htaken.reachable htaken.possible
  have hdrained := (htaken.reachable.rested htaken.member).drained
  have hledger := h.ledger
  rw [← htaken.before] at hin hdrained hledger
  obtain ⟨now, hstep⟩ := htaken.step
  obtain ⟨t, hcarries, hafter, heffects⟩ :=
    carries_of_step (fun ha => (htaken.tidy.lead ha).1) hstep
  rw [← hafter, ← heffects]
  exact hledger.of_carries hin htaken.tidy hdrained hcarries

/-- Another member follows on in a step. -/
theorem follower_step (h : Solo net p offered) {o : Occurrence ρ σ} (htaken : Taken spec net o)
    (hne : o.id ≠ p) (hrequest : o.input.requests = []) (helect : o.input ≠ .elect) :
    Follower p o.after ∧ ∀ x ∈ o.effects, x.Reports p := by
  have hin := h.input_from htaken.reachable hne htaken.possible hrequest helect
  have hfollower := h.follower o.id htaken.member hne
  rw [← htaken.before] at hfollower
  obtain ⟨now, t, hmoves, hafter, heffects⟩ := htaken.moves
  rw [← hafter, ← heffects]
  exact hfollower.of_moves (htaken.id_eq ▸ hne) hin hmoves

/-- **Every step keeps** the roles apart. -/
theorem step (h : Solo net p offered) {o : Occurrence ρ σ} (htaken : Taken spec net o)
    (hsole : o.id ≠ p → o.input.requests = [] ∧ o.input ≠ .elect) :
    ∃ offered', Solo (net.record o) p offered' := by
  by_cases hid : o.id = p
  · obtain ⟨offered', hledger⟩ := h.ledger_step htaken hid
    refine ⟨offered', ?_, fun q hq hne => ?_, fun q hq hne x hx => ?_⟩
    · rw [submittedTo_record, effectsOf_record, if_pos hid, if_pos hid, ← hid,
        net.replica_record_self, hid]
      exact hledger
    · rw [net.replica_record_ne (hid ▸ hne)]
      exact h.follower q hq hne
    · rw [effectsOf_record, if_neg (hid ▸ hne.symm), List.append_nil] at hx
      exact h.reports q hq hne x hx
  · obtain ⟨hrequest, helect⟩ := hsole hid
    obtain ⟨hfollower, hreports⟩ := h.follower_step htaken hid hrequest helect
    refine ⟨offered, ?_, fun q hq hne => ?_, fun q hq hne x hx => ?_⟩
    · rw [submittedTo_record, effectsOf_record, if_neg hid, if_neg hid,
        net.replica_record_ne (Ne.symm hid), List.append_nil, List.append_nil]
      exact h.ledger
    · by_cases heq : q = o.id
      · subst heq
        rw [net.replica_record_self]
        exact hfollower
      · rw [net.replica_record_ne heq]
        exact h.follower q hq hne
    · rw [effectsOf_record] at hx
      by_cases heq : o.id = q
      · subst heq
        rw [if_pos rfl] at hx
        exact (List.mem_append.mp hx).elim (h.reports _ hq hne x) (hreports x)
      · rw [if_neg heq, List.append_nil] at hx
        exact h.reports q hq hne x hx

end Solo

/-- **With one proposer the roles stay apart** throughout the run. -/
theorem Reachable.solo (hr : Reachable spec net) (hp : p ∈ net.members)
    (hsole : net.SoleProposer p) : ∃ offered, Solo net p offered := by
  refine hr.induction (P := fun net => p ∈ net.members → net.SoleProposer p →
    ∃ offered, Solo net p offered) ?_ ?_ hp hsole
  · exact fun net hf hp _ => ⟨[], .fresh hf hp⟩
  · intro net o htaken ih hp hsole
    obtain ⟨offered, h⟩ := ih hp fun a ha => hsole a (List.mem_cons_of_mem _ ha)
    exact h.step htaken (hsole o List.mem_cons_self)

end PaxosLog.Network
