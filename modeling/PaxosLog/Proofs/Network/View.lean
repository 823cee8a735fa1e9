import PaxosLog.Proofs.Network
import PaxosLog.Proofs.Replica.Carry
import PaxosLog.Proofs.Replica.Tidy

/-!
# Invariants of runs

Invariants are about a `View` of a network: the replicas, and who had which effect while handling
which input. A view takes part in every move of a step, not only in the steps: `Network.amid` is the
network in the middle of a step, and `View.Hop` one move of one member.

**`Network.Reachable.view`**: what holds of fresh clusters and is kept by every hop holds of every
reachable network; `Network.Reachable.amid`: and of the networks in the middle of its steps.
-/

namespace PaxosLog

open Relation (ReflTransGen)

variable {ρ σ : Type}

/-- The replicas of a run, and the effects each had while it handled each input. -/
structure View (ρ σ : Type) where
  members : List ReplicaId
  replica : ReplicaId → Replica ρ σ
  did : ReplicaId → Input → Effect → Prop

namespace View

/-- Votes were asked for. -/
def Asked (v : View ρ σ) (b : Ballot) (s : Slot) (c : Command) : Prop :=
  ∃ p i, v.did p i (.broadcast (.accept ⟨b, s, c⟩))

/-- Replica `r` asked for votes, and gave the first one itself, or voted when it was asked. -/
def Voted (v : View ρ σ) (r : ReplicaId) (b : Ballot) (s : Slot) (c : Command) : Prop :=
  (∃ i, v.did r i (.broadcast (.accept ⟨b, s, c⟩))) ∨
    ∃ q, v.did r (.message (.accept ⟨b, s, c⟩)) (.send q (.accepted ⟨b, s, r⟩))

/-- A command was announced as chosen. -/
def Announced (v : View ρ σ) (s : Slot) (c : Command) : Prop :=
  ∃ p i b, v.did p i (.broadcast (.commit ⟨b, s, c⟩))

/-- `m` was sent from `p` to `q`. -/
def Sent (v : View ρ σ) (p q : ReplicaId) (m : Message) : Prop :=
  ∃ i, v.did p i (.send q m) ∨ q ≠ p ∧ v.did p i (.broadcast m)

/-- The owner of `b`, if there is one, is a member and has seen `b`. -/
def Known (v : View ρ σ) (b : Ballot) : Prop :=
  ∀ p, b.owner = some p → p ∈ v.members ∧ b ≤ (v.replica p).ballot

variable [RandomSource ρ] [StateMachine σ]

/-- `v'` comes after `v` by a move from `t` to `t'` of replica `id`, which handles `input` and was
`before` when it began to. -/
structure Hop (v v' : View ρ σ) (id : ReplicaId) (input : Input) (before : Replica ρ σ)
    (t t' : Turn ρ σ) : Prop where
  member : id ∈ v.members
  members : v'.members = v.members
  move : Move before input t t'
  here : v.replica id = t.toReplica
  here' : v'.replica id = t'.toReplica
  there : ∀ p, p ≠ id → v'.replica p = v.replica p
  heard : ∀ m, input = .message m → ∃ p, v.Sent p id m
  did : ∀ p i x, v'.did p i x ↔ v.did p i x ∨ p = id ∧ i = input ∧ x ∈ t'.effects
  done : ∀ x ∈ t.effects, v.did id input x

namespace Hop

variable {v v' : View ρ σ} {id : ReplicaId} {input : Input} {before : Replica ρ σ}
  {t t' : Turn ρ σ}

/-- What was done stays done. -/
theorem mono (h : Hop v v' id input before t t') {p : ReplicaId} {i : Input} {x : Effect}
    (hd : v.did p i x) : v'.did p i x := (h.did p i x).mpr (Or.inl hd)

theorem now (h : Hop v v' id input before t t') {x : Effect} (hx : x ∈ t'.effects) :
    v'.did id input x := (h.did id input x).mpr (Or.inr ⟨rfl, rfl, hx⟩)

/-- A message is an old one or comes from the move. -/
theorem emits (h : Hop v v' id input before t t') {p : ReplicaId} {i : Input} {x : Effect}
    (hd : v'.did p i x) (hm : x.IsMessage) :
    v.did p i x ∨ p = id ∧ i = input ∧ Emits before input t t' x := by
  rcases (h.did p i x).mp hd with hd | ⟨rfl, rfl, hx⟩
  · exact Or.inl hd
  · rcases h.move.emits hx hm with hx | hs
    · exact Or.inl (h.done x hx)
    · exact Or.inr ⟨rfl, rfl, hs⟩

theorem asked (h : Hop v v' id input before t t') {b : Ballot} {s : Slot} {c : Command}
    (ha : v.Asked b s c) : v'.Asked b s c := by
  obtain ⟨p, i, hd⟩ := ha
  exact ⟨p, i, h.mono hd⟩

theorem announced (h : Hop v v' id input before t t') {s : Slot} {c : Command}
    (ha : v.Announced s c) : v'.Announced s c := by
  obtain ⟨p, i, b, hd⟩ := ha
  exact ⟨p, i, b, h.mono hd⟩

/-- Ballots only rise. -/
theorem ballot_le (h : Hop v v' id input before t t') (p : ReplicaId) :
    (v.replica p).ballot ≤ (v'.replica p).ballot := by
  by_cases hp : p = id
  · rw [hp, h.here, h.here']
    exact h.move.ballot_le
  · rw [h.there p hp]
    exact Std.le_refl _

theorem known (h : Hop v v' id input before t t') {b : Ballot} (hk : v.Known b) : v'.Known b := by
  intro p hp
  obtain ⟨hm, hle⟩ := hk p hp
  exact ⟨h.members ▸ hm, Std.le_trans hle (h.ballot_le p)⟩

end Hop

end View

namespace Network

/-- What invariants see of a network. -/
def view (net : Network ρ σ) : View ρ σ where
  members := net.members
  replica := net.replica
  did p i x := ∃ o ∈ net.past, o.id = p ∧ o.input = i ∧ x ∈ o.effects

/-- The network while replica `id` handles `input` and has come to `t`. -/
def amid (net : Network ρ σ) (id : ReplicaId) (input : Input) (t : Turn ρ σ) : Network ρ σ :=
  net.record ⟨id, input, net.replica id, t.toReplica, t.effects⟩

/-- At the beginning of a step nothing has changed yet. -/
theorem view_amid_begin (net : Network ρ σ) (id : ReplicaId) (input : Input) (now : Duration) :
    (net.amid id input { net.replica id with now, effects := [] }).view = net.view := by
  have hreplica : (net.amid id input { net.replica id with now, effects := [] }).replica =
      net.replica := by
    funext p
    by_cases hp : p = id
    · simp [amid, record, hp]
    · simp [amid, record, hp]
  simp only [view, View.mk.injEq]
  refine ⟨rfl, hreplica, ?_⟩
  funext p i x
  simp [amid, record]

theorem did_amid {net : Network ρ σ} {id : ReplicaId} {input : Input} {t : Turn ρ σ}
    {p : ReplicaId} {i : Input} {x : Effect} :
    (net.amid id input t).view.did p i x ↔
      net.view.did p i x ∨ p = id ∧ i = input ∧ x ∈ t.effects := by
  constructor
  · rintro ⟨o, ho, rfl, rfl, hx⟩
    rcases List.mem_cons.mp ho with rfl | ho
    · exact Or.inr ⟨rfl, rfl, hx⟩
    · exact Or.inl ⟨o, ho, rfl, rfl, hx⟩
  · rintro (⟨o, ho, rfl, rfl, hx⟩ | ⟨rfl, rfl, hx⟩)
    · exact ⟨o, List.mem_cons_of_mem _ ho, rfl, rfl, hx⟩
    · exact ⟨_, List.mem_cons_self, rfl, rfl, hx⟩

/-- A message of the past was sent by somebody. -/
theorem Sent.view {net : Network ρ σ} {q : ReplicaId} {m : Message} (h : net.Sent q m) :
    ∃ p, net.view.Sent p q m := by
  obtain ⟨o, ho, hs⟩ := h
  refine ⟨o.id, o.input, ?_⟩
  exact hs.imp (fun hx => ⟨o, ho, rfl, rfl, hx⟩) fun ⟨hne, hx⟩ => ⟨hne, o, ho, rfl, rfl, hx⟩

/-- A fresh replica. -/
theorem Fresh.replica {spec : QuorumSpec} {net : Network ρ σ} (h : Fresh spec net) {p : ReplicaId}
    (hp : p ∈ net.members) :
    (net.replica p).id = p ∧ (net.replica p).quorums = spec ∧ (net.replica p).log = .empty ∧
      (net.replica p).ballot = .zero ∧ Tidy (net.replica p) := by
  obtain ⟨config, hq, hstart⟩ := h.started
  obtain ⟨source, machine, hs⟩ := hstart p hp
  have ht := Tidy.start hs
  rw [Replica.start, hq] at hs
  have hr := Except.ok.inj hs
  refine ⟨?_, ?_, ?_, ?_, ht⟩ <;> rw [← hr]

/-- In a fresh cluster nothing has been done. -/
theorem Fresh.idle {spec : QuorumSpec} {net : Network ρ σ} (h : Fresh spec net) {p : ReplicaId}
    {i : Input} {x : Effect} : ¬ net.view.did p i x := by
  rintro ⟨o, ho, -⟩
  rw [h.past] at ho
  cases ho

/-- In a fresh cluster no log holds a vote. -/
theorem Fresh.isCommitted {spec : QuorumSpec} {net : Network ρ σ} (h : Fresh spec net)
    {p : ReplicaId} (hp : p ∈ net.members) {s : Slot} {e : LogEntry}
    (he : (net.replica p).log.get? s = some e) : s = Slot.sentinel ∧ e.isCommitted = true := by
  rw [(h.replica hp).2.2.1] at he
  obtain ⟨hs, rfl⟩ := Log.of_get?_empty he
  exact ⟨hs, rfl⟩

variable [RandomSource ρ] [StateMachine σ]

/-- A move in a step of a member is a hop. -/
theorem hop_of_move {net : Network ρ σ} {id : ReplicaId} {input : Input} {t t' : Turn ρ σ}
    (hid : id ∈ net.members) (hp : net.Possible id input)
    (h : Move (net.replica id) input t t') :
    View.Hop (net.amid id input t).view (net.amid id input t').view id input (net.replica id)
      t t' where
  member := hid
  members := rfl
  move := h
  here := by simp [view, amid, record]
  here' := by simp [view, amid, record]
  there p hne := by simp [view, amid, record, hne]
  heard m hi := by
    subst hi
    obtain ⟨p, i, hs⟩ := Sent.view hp
    exact ⟨p, i, hs.imp (fun hd => did_amid.mpr (Or.inl hd))
      fun ⟨hne, hd⟩ => ⟨hne, did_amid.mpr (Or.inl hd)⟩⟩
  did p i x := by
    rw [did_amid, did_amid]
    constructor
    · rintro (hd | hx)
      · exact Or.inl (Or.inl hd)
      · exact Or.inr hx
    · rintro ((hd | ⟨rfl, rfl, hx⟩) | hx)
      · exact Or.inl hd
      · exact Or.inr ⟨rfl, rfl, h.effects_sub hx⟩
      · exact Or.inr hx
  done x hx := did_amid.mpr (Or.inr ⟨rfl, rfl, hx⟩)

/-- A property of views that holds of fresh clusters, is kept by every hop, and says of leaders that
they own their ballot. -/
structure Invariant (spec : QuorumSpec) (P : View ρ σ → Prop) : Prop where
  fresh : ∀ net : Network ρ σ, Fresh spec net → P net.view
  lead : ∀ v, P v → ∀ p ∈ v.members, (v.replica p).active = true →
    (v.replica p).ballot.owner = some (v.replica p).id
  hop : ∀ v v' id input before t t', P v → View.Hop v v' id input before t t' → P v'

variable {spec : QuorumSpec} {P : View ρ σ → Prop}

theorem Invariant.moves (h : Invariant spec P) {net : Network ρ σ} {id : ReplicaId}
    {input : Input} {now : Duration} {t : Turn ρ σ} (hnet : P net.view) (hid : id ∈ net.members)
    (hp : net.Possible id input)
    (hm : Moves (net.replica id) input { net.replica id with now, effects := [] } t) :
    P (net.amid id input t).view := by
  induction hm with
  | refl => rw [view_amid_begin]; exact hnet
  | tail _ hmove ih => exact h.hop _ _ _ _ _ _ _ ih (hop_of_move hid hp hmove)

/-- **Invariants of hops are invariants of runs.** -/
theorem Reachable.view {net : Network ρ σ} (hr : Reachable spec net) (h : Invariant spec P) :
    P net.view := by
  obtain ⟨fresh, hf, hs⟩ := hr
  induction hs with
  | refl => exact h.fresh fresh hf
  | @tail net _ _ hstep ih =>
    obtain ⟨id, input, now, after, effects, hid, hp, hstep⟩ := hstep
    obtain ⟨t, hm, rfl, rfl⟩ := moves_of_step (h.lead _ ih id hid) hstep
    exact h.moves ih hid hp hm

/-- They also hold in the middle of a step. -/
theorem Reachable.amid {net : Network ρ σ} (hr : Reachable spec net) (h : Invariant spec P)
    {id : ReplicaId} {input : Input} {now : Duration} {t : Turn ρ σ} (hid : id ∈ net.members)
    (hp : net.Possible id input)
    (hm : Moves (net.replica id) input { net.replica id with now, effects := [] } t) :
    P (net.amid id input t).view :=
  h.moves (hr.view h) hid hp hm

end Network

end PaxosLog
