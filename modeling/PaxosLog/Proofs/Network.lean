import Mathlib.Logic.Relation
import PaxosLog.Random.Script
import PaxosLog.Replica.Step

/-!
# Runs of a cluster

`Network` is a cluster together with its past: what every step was given and what came of it. A
message that was sent once can arrive at any later time, any number of times, so nothing is ever
taken out of the past. `Network.Step` is one step of one member on an input that is possible then,
and `Network.Reachable` what steps make of a fresh cluster; there are no restarts.

`Network.play` carries out a list of inputs, as long as each is possible. **`steps_of_play`**: it
takes steps. Closed statements about single runs are checked through it.
-/

namespace PaxosLog

/-- The effect schedules another election. -/
def Effect.isAlarm : Effect → Bool
  | .scheduleElection _ => true
  | _ => false

/-- A step of replica `id`: its input, the replica before and after it, and its effects. -/
structure Occurrence (ρ σ : Type) where
  id : ReplicaId
  input : Input
  before : Replica ρ σ
  after : Replica ρ σ
  effects : List Effect

namespace Occurrence

variable {ρ σ : Type}

/-- The step sends `m` to `receiver`. -/
def Sends (o : Occurrence ρ σ) (receiver : ReplicaId) (m : Message) : Prop :=
  .send receiver m ∈ o.effects ∨ receiver ≠ o.id ∧ .broadcast m ∈ o.effects

instance (o : Occurrence ρ σ) (receiver : ReplicaId) (m : Message) :
    Decidable (o.Sends receiver m) :=
  inferInstanceAs (Decidable (_ ∨ _))

/-- The step asks for votes for `c` at slot `s` under `b`. -/
def Asks (o : Occurrence ρ σ) (b : Ballot) (s : Slot) (c : Command) : Prop :=
  .broadcast (.accept ⟨b, s, c⟩) ∈ o.effects

instance (o : Occurrence ρ σ) (b : Ballot) (s : Slot) (c : Command) :
    Decidable (o.Asks b s c) :=
  inferInstanceAs (Decidable (_ ∈ o.effects))

/-- The step votes for `c` at slot `s` under `b`: it asks for votes, its own being the first, or
handles such a proposal while no higher ballot is known. -/
def Votes (o : Occurrence ρ σ) (b : Ballot) (s : Slot) (c : Command) : Prop :=
  o.Asks b s c ∨ o.input = .message (.accept ⟨b, s, c⟩) ∧ o.before.ballot ≤ b

instance (o : Occurrence ρ σ) (b : Ballot) (s : Slot) (c : Command) :
    Decidable (o.Votes b s c) :=
  inferInstanceAs (Decidable (_ ∨ _))

end Occurrence

/-- A cluster and its past, the latest step first. Only members take steps. -/
structure Network (ρ σ : Type) where
  members : List ReplicaId
  replica : ReplicaId → Replica ρ σ
  past : List (Occurrence ρ σ)

namespace Network

variable {ρ σ : Type}

/-- The network after a step. -/
def record (net : Network ρ σ) (o : Occurrence ρ σ) : Network ρ σ :=
  { net with
    replica := fun p => if p = o.id then o.after else net.replica p
    past := o :: net.past }

theorem replica_record_self (net : Network ρ σ) (o : Occurrence ρ σ) :
    (net.record o).replica o.id = o.after := if_pos rfl

theorem replica_record_ne (net : Network ρ σ) {o : Occurrence ρ σ} {p : ReplicaId}
    (hp : p ≠ o.id) : (net.record o).replica p = net.replica p := if_neg hp

/-- `m` was sent to `receiver`. -/
def Sent (net : Network ρ σ) (receiver : ReplicaId) (m : Message) : Prop :=
  ∃ o ∈ net.past, o.Sends receiver m

instance (net : Network ρ σ) (receiver : ReplicaId) (m : Message) :
    Decidable (net.Sent receiver m) :=
  inferInstanceAs (Decidable (∃ o ∈ net.past, _))

/-- What replica `id` can be given next: a request that is new or was handed back since it was
last submitted, a message that was sent to it, an election, or the end of a scheduled delay. -/
def Possible (net : Network ρ σ) (id : ReplicaId) : Input → Prop
  | .request r =>
    net.past.countP (·.input = .request r) ≤ (net.past.flatMap (·.effects)).count (.retry r)
  | .message m => net.Sent id m
  | .elect => True
  | .backoffElapsed =>
    net.past.countP (fun o => o.id = id ∧ o.input = .backoffElapsed) <
      ((net.past.filter (·.id = id)).flatMap (·.effects)).countP Effect.isAlarm

instance (net : Network ρ σ) (id : ReplicaId) : (input : Input) →
    Decidable (net.Possible id input)
  | .request r =>
    inferInstanceAs (Decidable (net.past.countP (·.input = .request r) ≤ _))
  | .message m => inferInstanceAs (Decidable (net.Sent id m))
  | .elect => inferInstanceAs (Decidable True)
  | .backoffElapsed =>
    inferInstanceAs
      (Decidable (net.past.countP (fun o => o.id = id ∧ o.input = .backoffElapsed) < _))

/-- Distinct members, all started from one configuration, whose thresholds are `spec`. -/
structure Fresh (spec : QuorumSpec) (net : Network ρ σ) : Prop where
  distinct : net.members.Nodup
  past : net.past = []
  started : ∃ config : Config, config.quorums net.members.length = .ok spec ∧
    ∀ id ∈ net.members, ∃ source machine,
      Replica.start id net.members.length config source machine = .ok (net.replica id)

variable [RandomSource ρ] [StateMachine σ]

/-- A member takes a step on a possible input. -/
inductive Step (net : Network ρ σ) : Network ρ σ → Prop
  | step (id : ReplicaId) (input : Input) (now : Duration) (after : Replica ρ σ)
      (effects : List Effect) (hid : id ∈ net.members) (hp : net.Possible id input)
      (h : (net.replica id).step now input = .ok (after, effects)) :
      Step net (net.record ⟨id, input, net.replica id, after, effects⟩)

/-- Steps one after another. -/
abbrev Steps : Network ρ σ → Network ρ σ → Prop := Relation.ReflTransGen Step

/-- What steps make of a fresh cluster with thresholds `spec`. -/
def Reachable (spec : QuorumSpec) (net : Network ρ σ) : Prop :=
  ∃ fresh, Fresh spec fresh ∧ Steps fresh net

theorem Reachable.steps {spec : QuorumSpec} {net net' : Network ρ σ} (h : Reachable spec net)
    (hs : Steps net net') : Reachable spec net' := by
  obtain ⟨fresh, hf, hr⟩ := h
  exact ⟨fresh, hf, hr.trans hs⟩

/-! ## Playing a run -/

/-- Gives inputs to replicas one after another, at time zero, as long as each is possible. -/
def play (net : Network ρ σ) : List (ReplicaId × Input) → Option (Network ρ σ)
  | [] => some net
  | (id, input) :: rest =>
    if id ∈ net.members ∧ net.Possible id input then
      match (net.replica id).step .zero input with
      | .error _ => none
      | .ok (after, effects) =>
        play (net.record ⟨id, input, net.replica id, after, effects⟩) rest
    else none

theorem steps_of_play {inputs : List (ReplicaId × Input)} {net net' : Network ρ σ}
    (h : net.play inputs = some net') : Steps net net' := by
  induction inputs generalizing net with
  | nil => cases h; exact .refl
  | cons i inputs ih =>
    obtain ⟨id, input⟩ := i
    unfold play at h
    split at h
    · rename_i hi
      split at h
      · cases h
      · rename_i after effects hstep
        exact .head (.step id input .zero after effects hi.1 hi.2 hstep) (ih h)
    · cases h

/-- A run from `net` that ends as the check says. -/
theorem exists_of_play (net : Network ρ σ) (inputs : List (ReplicaId × Input))
    (check : Network ρ σ → Prop) [DecidablePred check]
    (h : (net.play inputs).any (fun net' => check net') = true) :
    ∃ net', Steps net net' ∧ check net' := by
  obtain ⟨net', hn, hc⟩ := (Option.any_eq_true _ _).mp h
  exact ⟨net', steps_of_play hn, of_decide_eq_true hc⟩

end Network

/-! ## A cluster of three -/

/-- Majorities of three replicas. -/
def QuorumSpec.three : QuorumSpec where
  clusterSize := 3
  phase1 := 2
  phase2 := 2
  phase1_pos := by decide
  phase2_pos := by decide
  phase1_le := by decide
  phase2_le := by decide
  overlap := by decide

/-- Fresh replicas 1, 2 and 3 with the standard configuration. -/
def Network.trio : Network Script Journal where
  members := [1, 2, 3]
  replica id :=
    { id
      quorums := .three
      log := .empty
      ballot := .zero
      active := false
      promises := .empty
      pending := []
      backoff := .idle Config.standard.backoff
      source := ⟨[]⟩
      machine := .empty }
  past := []

theorem Network.fresh_trio : Fresh .three trio where
  distinct := by decide
  past := rfl
  started := ⟨.standard, rfl, fun _ _ => ⟨⟨[]⟩, .empty, rfl⟩⟩

/-- Replica 1 takes a request and is elected by replica 2. -/
def Network.firstElection : List (ReplicaId × Input) :=
  [(1, .request ⟨0, [65]⟩), (2, .message (.prepare ⟨⟨1, some 1⟩, 1⟩)),
    (1, .message (.promise ⟨⟨1, some 1⟩, 2, ∅⟩))]

end PaxosLog
