import PaxosLog.Cluster
import PaxosLog.Proofs.Network.Extends

/-!
# The scheduler takes steps of the network

A cluster under a scheduler and a network differ in what they keep. The network forgets nothing, so
a message can arrive again whenever it was sent. The scheduler has a queue of messages, and knows
which replicas wait for a delay. `Network.Mirrors` relates the two, and every command leads from a
mirrored cluster to a mirrored one by steps of the network.

| cluster | network |
|---|---|
| a message in the queue | was sent |
| a replica that is due | asked for a delay that has not passed |
| a request that was handed back is submitted at once | is possible again |

One command is left out: `Schedule.backoffElapsed` lets a delay pass whether or not one was asked
for. `Schedule.settle` lets only those pass that are due.

* `Network.follows_resubmit`: a replica is given all requests that it hands back.
* `Network.Mirrors.feed`: one input, and everything that it brings about.
* `Network.Mirrors.command`: one command.
* **`Network.mirrored_of_schedule`**: every schedule from a fresh cluster on, also one that ends in
  a fault. So what holds of reachable networks holds of clusters under a scheduler.
-/

namespace PaxosLog

/-- The effects of one replica, in a report about several. -/
def effectsBy (p : ReplicaId) (effects : List (ReplicaId × Effect)) : List Effect :=
  (effects.filter (·.1 = p)).map Prod.snd

@[simp] theorem effectsBy_append (p : ReplicaId) (xs ys : List (ReplicaId × Effect)) :
    effectsBy p (xs ++ ys) = effectsBy p xs ++ effectsBy p ys := by
  simp [effectsBy]

theorem effectsBy_map (p id : ReplicaId) (effects : List Effect) :
    effectsBy p (effects.map (id, ·)) = if id = p then effects else [] := by
  by_cases h : id = p <;> simp [effectsBy, List.filter_map, Function.comp_def, h]

theorem Cluster.retries_eq (effects : List Effect) : Cluster.retries effects = retried effects :=
  List.filterMap_congr fun x _ => by cases x <;> rfl

/-! ## Effects of a replica -/

namespace Cluster

/-- A request that was submitted is owed to one holder. -/
def owed (c : Cluster) (q : ClientRequest) : Nat :=
  if q.ticket < c.clients.receivers.length then 1 else 0

theorem owed_le_one (c : Cluster) (q : ClientRequest) : c.owed q ≤ 1 := by
  unfold owed
  split <;> omega

/-- `c'` is `c` after these effects of replica `id`. -/
structure Noted (id : ReplicaId) (effects : List Effect) (c c' : Cluster) : Prop where
  replicas : c'.replicas = c.replicas
  clients : c'.clients.receivers.length = c.clients.receivers.length
  queue : ∀ e ∈ c'.queue, e ∈ c.queue ∨ .send e.receiver e.message ∈ effects ∨
    e.receiver ≠ id ∧ .broadcast e.message ∈ effects
  due : ∀ p ∈ c'.due, p ∈ c.due ∨ p = id ∧ ∃ x ∈ effects, x.isAlarm = true
  distinct : c.due.Nodup → c'.due.Nodup
  effects : c'.effects = c.effects ++ effects.map (id, ·)

/-- Only sends and broadcasts put messages under way. -/
theorem mem_envelopes {c : Cluster} {id : ReplicaId} {x : Effect} {e : Envelope}
    (h : e ∈ c.envelopes id x) :
    x = .send e.receiver e.message ∨ e.receiver ≠ id ∧ x = .broadcast e.message := by
  cases x with
  | broadcast m =>
    obtain ⟨r, hr, rfl⟩ := List.mem_map.mp h
    exact .inr ⟨of_decide_eq_true (List.mem_filter.mp hr).2, rfl⟩
  | send receiver m =>
    obtain ⟨-, he⟩ := (List.mem_ite_nil_right ..).mp h
    rw [List.mem_singleton.mp he]
    exact .inl rfl
  | _ => cases h

theorem noted_absorb (id : ReplicaId) (c : Cluster) (x : Effect) :
    Noted id [x] c (c.absorb id x) := by
  have hqueue : ∀ e ∈ c.queue ++ c.envelopes id x, e ∈ c.queue ∨
      .send e.receiver e.message ∈ [x] ∨ e.receiver ≠ id ∧ .broadcast e.message ∈ [x] := by
    intro e he
    refine (List.mem_append.mp he).imp_right fun he => ?_
    simpa [eq_comm] using mem_envelopes he
  cases x with
  | reply request reply =>
    exact ⟨rfl, by simp [absorb, Clients.answer], hqueue, fun _ hp => .inl hp, fun h => h, rfl⟩
  | scheduleElection delay =>
    unfold absorb
    by_cases hdue : id ∈ c.due
    · simp only [hdue, if_true]
      exact ⟨rfl, rfl, hqueue, fun _ hp => .inl hp, fun h => h, rfl⟩
    · simp only [hdue, if_false]
      refine ⟨rfl, rfl, hqueue, fun p hp => ?_, fun h => ?_, rfl⟩
      · exact (List.mem_append.mp hp).imp_right fun hp =>
          ⟨List.mem_singleton.mp hp, _, .head _, rfl⟩
      · exact List.nodup_append.mpr ⟨h, List.nodup_singleton id,
          fun a ha b hb heq => hdue (List.mem_singleton.mp hb ▸ heq ▸ ha)⟩
  | _ => exact ⟨rfl, rfl, hqueue, fun _ hp => .inl hp, fun h => h, rfl⟩

theorem noted_foldl (id : ReplicaId) (effects : List Effect) (c : Cluster) :
    Noted id effects c (effects.foldl (absorb id) c) := by
  induction effects generalizing c with
  | nil =>
    exact ⟨rfl, rfl, fun _ he => .inl he, fun _ hp => .inl hp, fun h => h, by simp⟩
  | cons x effects ih =>
    have hfirst := noted_absorb id c x
    have hrest := ih (c.absorb id x)
    have hsub : ∀ y ∈ [x], y ∈ x :: effects := fun y hy =>
      List.mem_singleton.mp hy ▸ List.mem_cons_self
    refine ⟨hrest.replicas.trans hfirst.replicas, hrest.clients.trans hfirst.clients,
      fun e he => ?_, fun p hp => ?_, fun h => hrest.distinct (hfirst.distinct h), ?_⟩
    · rcases hrest.queue e he with he | he
      · exact (hfirst.queue e he).imp_right fun he =>
          he.imp (hsub _) fun ⟨hne, he⟩ => ⟨hne, hsub _ he⟩
      · exact .inr (he.imp (.tail _) fun ⟨hne, he⟩ => ⟨hne, .tail _ he⟩)
    · rcases hrest.due p hp with hp | ⟨rfl, y, hy, halarm⟩
      · exact (hfirst.due p hp).imp_right fun ⟨hid, y, hy, halarm⟩ => ⟨hid, y, hsub y hy, halarm⟩
      · exact .inr ⟨rfl, y, .tail _ hy, halarm⟩
    · rw [List.foldl_cons, hrest.effects, hfirst.effects]
      simp

end Cluster

namespace Network

open Cluster

variable {net net' : Network Script Journal} {id : ReplicaId} {effects : List Effect}

/-! ## One input -/

/-- **A replica is given all requests that it hands back**, as long as each is owed to one
holder. -/
theorem follows_resubmit {owed : ClientRequest → Nat} (howed : ∀ q, owed q ≤ 1) {now : Duration}
    {count : Nat} {waiting : List ClientRequest} (hid : id ∈ net.members)
    (hq : ∀ q, net.submissions q + waiting.count q ≤ net.handedBack q + owed q) :
    net.Follows (resubmit now count waiting (net.replica id)) fun net' out =>
      ∃ inputs, Extends net id inputs out.2 net' ∧ net'.replica id = out.1 ∧
        .backoffElapsed ∉ inputs ∧ ∀ q, net'.submissions q ≤ net'.handedBack q + owed q := by
  induction count generalizing net waiting with
  | zero => exact .ok ⟨[], .refl net id, rfl, by simp, fun q => Nat.le_of_add_right_le (hq q)⟩
  | succ count ih =>
    cases waiting with
    | nil => exact .ok ⟨[], .refl net id, rfl, by simp, hq⟩
    | cons request waiting =>
      unfold resubmit
      have hpossible : net.Possible id (.request request) := by
        have hone := hq request
        have hle := howed request
        simp only [List.count_cons_self] at hone
        show net.submissions request ≤ net.handedBack request
        omega
      refine (follows_step hid hpossible).bind ?_
      rintro net₁ ⟨r₁, out⟩ ⟨hfirst, hr₁⟩
      obtain rfl : net₁.replica id = r₁ := hr₁
      have hq₁ : ∀ q, net₁.submissions q + (waiting ++ retries out).count q ≤
          net₁.handedBack q + owed q := fun q => by
        have hone := hq q
        rw [hfirst.submissions, hfirst.handedBack, retries_eq, List.count_append]
        simp only [List.flatMap_singleton, Input.requests, List.count_cons, List.count_nil]
          at hone ⊢
        omega
      refine (ih (hfirst.steps.members ▸ hid) hq₁).bind ?_
      rintro net₂ ⟨r₂, rest⟩ ⟨inputs, hmore, hlast, hnone, hq₂⟩
      exact .ok ⟨_, hfirst.trans hmore, hlast, by simpa using hnone, hq₂⟩

/-- The network has made the same of its members as the scheduler of its replicas, and what the
scheduler has in store is possible in the network. -/
structure Mirrors (spec : QuorumSpec) (net : Network Script Journal) (c : Cluster) : Prop where
  reachable : Reachable spec net
  members : net.members = c.replicas.map Replica.id
  replica : ∀ r ∈ c.replicas, net.replica r.id = r
  sent : ∀ e ∈ c.queue, net.Sent e.receiver e.message
  due : ∀ p ∈ c.due, net.Possible p .backoffElapsed
  distinct : c.due.Nodup
  /-- A request was submitted once when it was new, and then only if it was handed back. -/
  requests : ∀ q, net.submissions q ≤ net.handedBack q + c.owed q

/-- The network mirrors `c'` now, and since it mirrored `c` its members have had the effects that
were noted meanwhile. -/
structure Leads (spec : QuorumSpec) (net : Network Script Journal) (c : Cluster)
    (net' : Network Script Journal) (c' : Cluster) : Prop where
  mirrors : Mirrors spec net' c'
  effects : ∀ p, ∃ out, net'.effectsOf p = net.effectsOf p ++ out ∧
    effectsBy p c'.effects = effectsBy p c.effects ++ out

variable {spec : QuorumSpec} {net'' : Network Script Journal} {c c' c'' : Cluster}

theorem Leads.trans (h : Leads spec net c net' c') (h' : Leads spec net' c' net'' c'') :
    Leads spec net c net'' c'' where
  mirrors := h'.mirrors
  effects p := by
    obtain ⟨out, hnet, hc⟩ := h.effects p
    obtain ⟨more, hnet', hc'⟩ := h'.effects p
    exact ⟨out ++ more, by rw [hnet', hnet, List.append_assoc], by rw [hc', hc, List.append_assoc]⟩

/-- Only the effects so far count at the beginning. -/
theorem Leads.of_effects_eq (h : Leads spec net c net' c') {b : Cluster}
    (heq : c.effects = b.effects) : Leads spec net b net' c' :=
  ⟨h.mirrors, heq ▸ h.effects⟩

namespace Mirrors

theorem leads_refl (h : Mirrors spec net c) : Leads spec net c net c :=
  ⟨h, fun p => ⟨[], by simp, by simp⟩⟩

/-- A cluster with less in store, and with more clients. -/
theorem weaken (h : Mirrors spec net c) (hreplicas : c'.replicas = c.replicas)
    (hqueue : ∀ e ∈ c'.queue, e ∈ c.queue) (hdue : c'.due.Sublist c.due)
    (hclients : c.clients.receivers.length ≤ c'.clients.receivers.length) :
    Mirrors spec net c' where
  reachable := h.reachable
  members := hreplicas ▸ h.members
  replica := hreplicas ▸ h.replica
  sent e he := h.sent e (hqueue e he)
  due p hp := h.due p (hdue.mem hp)
  distinct := h.distinct.sublist hdue
  requests q := by
    refine Nat.le_trans (h.requests q) (Nat.add_le_add_left ?_ _)
    unfold Cluster.owed
    split <;> split <;> omega

/-- Messages are taken out of the queue. -/
theorem lose (h : Mirrors spec net c) {queue : List Envelope} (hqueue : ∀ e ∈ queue, e ∈ c.queue) :
    Mirrors spec net { c with queue } :=
  h.weaken rfl hqueue (List.Sublist.refl _) (Nat.le_refl _)

/-- What is due after steps on one input and on requests is possible. -/
theorem possible_of_due (h : Mirrors spec net c) {input : Input} {inputs : List Input}
    (hpossible : net.Possible id input) (hdue : input = .backoffElapsed → id ∉ c.due)
    (hnone : .backoffElapsed ∉ inputs) (hall : Extends net id (input :: inputs) effects net')
    {p : ReplicaId} (hp : p ∈ c.due ∨ p = id ∧ ∃ x ∈ effects, x.isAlarm = true) :
    net'.Possible p .backoffElapsed := by
  by_cases hne : p = id
  · subst hne
    rw [hall.possible_self, List.count_cons, List.count_eq_zero.mpr hnone]
    have hle := h.reachable.elapsedOf_le p
    by_cases hinput : input = .backoffElapsed
    · subst hinput
      have hlt := possible_backoffElapsed.mp hpossible
      obtain hp | ⟨-, x, hx, halarm⟩ := hp
      · exact absurd hp (hdue rfl)
      · have hone := List.countP_pos_iff.mpr ⟨x, hx, halarm⟩
        simp only [beq_self_eq_true, if_true]
        omega
    · simp only [beq_iff_eq, hinput, if_false]
      obtain hp | ⟨-, x, hx, halarm⟩ := hp
      · have hlt := possible_backoffElapsed.mp (h.due p hp)
        omega
      · have hone := List.countP_pos_iff.mpr ⟨x, hx, halarm⟩
        omega
  · exact hall.possible_other hne (h.due p (hp.resolve_right fun hown => hne hown.1))

/-- The cluster after the steps of one replica, if what is due then is possible. -/
theorem noted (h : Mirrors spec net c) {inputs : List Input} {r : Replica Script Journal}
    (hall : Extends net id inputs effects net') (hmember : id ∈ net.members)
    (hlast : net'.replica id = r)
    (hnoted : Noted id effects
      { c with replicas := c.replicas.map fun old => if old.id = id then r else old } c')
    (hdue : ∀ p ∈ c'.due, net'.Possible p .backoffElapsed)
    (hq : ∀ q, net'.submissions q ≤ net'.handedBack q + c.owed q) : Mirrors spec net' c' := by
  have hreachable := h.reachable.steps hall.steps
  have hmember' : id ∈ net'.members := hall.steps.members ▸ hmember
  have hafter : r.id = id := by
    rw [← hlast]
    exact (hreachable.view (PaxosLog.sound spec)).orderly.id id hmember'
  refine ⟨hreachable, ?_, fun r' hr' => ?_, fun e he => ?_, hdue, hnoted.distinct h.distinct,
    fun q => ?_⟩
  · rw [hall.steps.members, h.members, hnoted.replicas, List.map_map]
    refine List.map_congr_left fun old _ => ?_
    by_cases hold : old.id = id
    · simp [hold, hafter]
    · simp [hold]
  · rw [hnoted.replicas] at hr'
    obtain ⟨old, hold, rfl⟩ := List.mem_map.mp hr'
    by_cases heq : old.id = id
    · rw [if_pos heq, hafter, hlast]
    · rw [if_neg heq, hall.others _ heq, h.replica old hold]
  · rcases hnoted.queue e he with hold | hnew
    · exact hall.sent (h.sent e hold)
    · refine sent_iff.mpr ⟨id, ?_⟩
      rw [hall.effectsOf, if_pos rfl]
      exact hnew.imp (List.mem_append_right _) fun ⟨hne, hx⟩ => ⟨hne, List.mem_append_right _ hx⟩
  · have howed : c'.owed q = c.owed q := by
      unfold owed
      rw [hnoted.clients]
    rw [howed]
    exact hq q

/-- **A replica is given an input**, and then all requests that it hands back. What the others have
in store stays as it is. -/
theorem feed (h : Mirrors spec net c) (input : Input) (hpossible : net.Possible id input)
    (hdue : input = .backoffElapsed → id ∉ c.due)
    (hq : ∀ q, net.submissions q + input.requests.count q ≤ net.handedBack q + c.owed q) :
    net.Follows (Cluster.feed id input c) fun net' c' => Leads spec net c net' c' ∧
      (∀ p, p ≠ id → p ∈ c'.due → p ∈ c.due) ∧
      ∀ p, p ≠ id → net.Possible p .backoffElapsed → net'.Possible p .backoffElapsed := by
  unfold Cluster.feed
  cases hr : c.replica? id with
  | none => exact .ok ⟨h.leads_refl, fun _ _ hp => hp, fun _ _ hp => hp⟩
  | some r =>
    have hmem : r ∈ c.replicas := List.mem_of_find?_eq_some hr
    have hid : r.id = id := by simpa using List.find?_some hr
    obtain rfl : net.replica id = r := hid ▸ h.replica r hmem
    have hmember : id ∈ net.members := by
      rw [h.members, ← hid]
      exact List.mem_map_of_mem hmem
    refine (follows_step hmember hpossible).bind ?_
    rintro net₁ ⟨r₁, out⟩ ⟨hfirst, hr₁⟩
    obtain rfl : net₁.replica id = r₁ := hr₁
    have hq₁ : ∀ q, net₁.submissions q + (retries out).count q ≤ net₁.handedBack q + c.owed q :=
      fun q => by
        have hone := hq q
        rw [hfirst.submissions, hfirst.handedBack, retries_eq]
        simp only [List.flatMap_singleton]
        omega
    refine (follows_resubmit c.owed_le_one (hfirst.steps.members ▸ hmember) hq₁).bind ?_
    rintro net₂ ⟨r₂, more⟩ ⟨inputs, hback, hlast, hnone, hq₂⟩
    have hall := hfirst.trans hback
    have hnoted := noted_foldl id (out ++ more)
      { c with replicas := c.replicas.map fun old => if old.id = id then r₂ else old }
    have hmirrors := h.noted hall hmember hlast hnoted
      (fun p hp => h.possible_of_due hpossible hdue hnone hall (hnoted.due p hp)) hq₂
    refine .ok ⟨⟨hmirrors, fun p => ⟨_, hall.effectsOf p, ?_⟩⟩, fun p hne hp => ?_,
      fun p hne => hall.possible_other hne⟩
    · rw [hnoted.effects, effectsBy_append, effectsBy_map]
    · exact (hnoted.due p hp).resolve_right fun hown => hne hown.1

/-! ## Commands -/

/-- A client submits a command. Its request has a ticket of its own, and was never given to
anybody. -/
theorem submit (h : Mirrors spec net c) (id : ReplicaId) (command : Bytes) :
    net.Follows (c.command (.submit id command)) (Leads spec net c) := by
  have hone : (c.clients.submit command).2.receivers.length = c.clients.receivers.length + 1 := by
    simp [Clients.submit]
  have hasked : Mirrors spec net { c with clients := (c.clients.submit command).2 } :=
    h.weaken rfl (fun _ he => he) (List.Sublist.refl _) (hone ▸ Nat.le_succ _)
  have hnew : c.owed (c.clients.submit command).1 = 0 := if_neg (Nat.lt_irrefl _)
  have hfree : net.Possible id (.request (c.clients.submit command).1) := by
    have hle := h.requests (c.clients.submit command).1
    rwa [hnew] at hle
  have hq : ∀ q, net.submissions q + [(c.clients.submit command).1].count q ≤
      net.handedBack q + owed { c with clients := (c.clients.submit command).2 } q := fun q => by
    by_cases hown : (c.clients.submit command).1 = q
    · subst hown
      have howed : owed { c with clients := (c.clients.submit command).2 }
          (c.clients.submit command).1 = 1 := if_pos (hone ▸ Nat.lt_succ_self _)
      rw [howed, List.count_singleton_self]
      exact Nat.add_le_add_right hfree 1
    · rw [List.count_singleton, if_neg (by simpa using hown)]
      exact hasked.requests q
  exact (hasked.feed _ hfree nofun hq).mono fun _ _ hfed => hfed.1.of_effects_eq rfl

/-- A message arrives. -/
theorem arrive (h : Mirrors spec net c) {e : Envelope} (hsent : net.Sent e.receiver e.message) :
    net.Follows (Cluster.arrive e c) (Leads spec net c) := by
  have hnoted : Mirrors spec net { c with delivered := c.delivered ++ [e] } :=
    h.weaken rfl (fun _ he => he) (List.Sublist.refl _) (Nat.le_refl _)
  exact (hnoted.feed (.message e.message) hsent nofun hnoted.requests).mono
    fun _ _ hfed => hfed.1.of_effects_eq rfl

/-- Messages arrive from the front of the queue. -/
theorem run (h : Mirrors spec net c) (limit : Nat) :
    net.Follows (Cluster.run limit c) fun net' out => Leads spec net c net' out.2 := by
  induction limit generalizing net c with
  | zero => exact .ok h.leads_refl
  | succ limit ih =>
    unfold Cluster.run
    split
    · exact .ok h.leads_refl
    · rename_i e queue hqueue
      have htaken : Mirrors spec net { c with queue } := h.lose fun _ he => hqueue ▸ .tail _ he
      refine (htaken.arrive (h.sent e (hqueue ▸ .head _))).bind fun net₁ c₁ hfirst => ?_
      exact (ih hfirst.mirrors).mono fun _ _ hmore => (hfirst.trans hmore).of_effects_eq rfl

/-- Delays pass for one replica after another. -/
theorem delays (h : Mirrors spec net c) {ids : List ReplicaId} (hdistinct : ids.Nodup)
    (hdue : ∀ p ∈ ids, net.Possible p .backoffElapsed ∧ p ∉ c.due) :
    net.Follows (ids.foldlM (fun c id => Cluster.feed id .backoffElapsed c) c)
      (Leads spec net c) := by
  induction ids generalizing net c with
  | nil => exact .ok h.leads_refl
  | cons id ids ih =>
    obtain ⟨hnew, hdistinct⟩ := List.nodup_cons.mp hdistinct
    obtain ⟨hpossible, hnone⟩ := hdue id (.head _)
    rw [List.foldlM_cons]
    refine (h.feed _ hpossible (fun _ => hnone) h.requests).bind ?_
    rintro net₁ c₁ ⟨hfirst, hothers, hkept⟩
    have hdue₁ : ∀ p ∈ ids, net₁.Possible p .backoffElapsed ∧ p ∉ c₁.due := fun p hp => by
      have hne : p ≠ id := fun heq => hnew (heq ▸ hp)
      obtain ⟨hlater, hnot⟩ := hdue p (.tail _ hp)
      exact ⟨hkept p hne hlater, fun hin => hnot (hothers p hne hin)⟩
    exact (ih hfirst.mirrors hdistinct hdue₁).mono fun _ _ hmore => hfirst.trans hmore

/-- Messages arrive and delays pass in turn. -/
theorem settle (h : Mirrors spec net c) (rounds limit : Nat) :
    net.Follows (Cluster.settle rounds limit c) (Leads spec net c) := by
  induction rounds generalizing net c limit with
  | zero => exact .ok h.leads_refl
  | succ rounds ih =>
    unfold Cluster.settle
    refine (h.run limit).bind ?_
    rintro net₁ ⟨left, c₁⟩ hfirst
    have hm := hfirst.mirrors
    have htaken : Mirrors spec net₁ { c₁ with due := [] } :=
      hm.weaken rfl (fun _ he => he) (List.nil_sublist _) (Nat.le_refl _)
    have hso : Leads spec net c net₁ { c₁ with due := [] } := ⟨htaken, hfirst.effects⟩
    simp only
    split
    · exact .ok hso
    · have hperm := List.mergeSort_perm c₁.due (· ≤ ·)
      refine (htaken.delays (hperm.nodup_iff.mpr hm.distinct) fun p hp =>
        ⟨hm.due p (hperm.mem_iff.mp hp), List.not_mem_nil⟩).bind fun net₂ c₂ hdelays => ?_
      exact (ih hdelays.mirrors left).mono fun _ _ hmore => (hso.trans hdelays).trans hmore

/-- **Every command takes steps of the network**, as long as it lets no delay pass that may not be
due. -/
theorem command (h : Mirrors spec net c) {s : Schedule} (htimely : ∀ id, s ≠ .backoffElapsed id) :
    net.Follows (c.command s) (Leads spec net c) := by
  cases s with
  | submit id command => exact h.submit id command
  | deliver k =>
    cases he : c.queue[c.place k]? with
    | none =>
      simp only [Cluster.command, he]
      exact .ok h.leads_refl
    | some e =>
      simp only [Cluster.command, he]
      have htaken := h.lose fun _ => List.mem_of_mem_eraseIdx (i := c.place k)
      exact (htaken.arrive (h.sent e (List.mem_of_getElem? he))).mono
        fun _ _ hleads => hleads.of_effects_eq rfl
  | repeated k =>
    cases he : c.queue[c.place k]? with
    | none =>
      simp only [Cluster.command, he]
      exact .ok h.leads_refl
    | some e =>
      simp only [Cluster.command, he]
      exact h.arrive (h.sent e (List.mem_of_getElem? he))
  | drop k => exact .ok ((h.lose fun _ => List.mem_of_mem_eraseIdx).leads_refl.of_effects_eq rfl)
  | dropTo id => exact .ok ((h.lose fun _ => List.mem_of_mem_filter).leads_refl.of_effects_eq rfl)
  | dropFrom id => exact .ok ((h.lose fun _ => List.mem_of_mem_filter).leads_refl.of_effects_eq rfl)
  | elect id => exact (h.feed .elect trivial nofun h.requests).mono fun _ _ hfed => hfed.1
  | backoffElapsed id => exact absurd rfl (htimely id)
  | run limit => exact (h.run limit).map fun _ _ hleads => hleads
  | settle limit => exact h.settle (limit + 2) limit

/-- A command with its report. -/
theorem step (h : Mirrors spec net c) {s : Schedule} (htimely : ∀ id, s ≠ .backoffElapsed id) :
    net.Follows (c.step s) fun net' out => Mirrors spec net' out.2 ∧
      ∀ p, net'.effectsOf p = net.effectsOf p ++ effectsBy p out.1.effects := by
  have hbegin : Mirrors spec net { c with delivered := [], effects := [] } :=
    h.weaken rfl (fun _ he => he) (List.Sublist.refl _) (Nat.le_refl _)
  refine (hbegin.command htimely).map fun net' c' hleads => ⟨?_, fun p => ?_⟩
  · exact hleads.mirrors.weaken rfl (fun _ he => he) (List.Sublist.refl _)
      (by simp [Clients.collect])
  · obtain ⟨out, hnet, hc⟩ := hleads.effects p
    rw [hnet, hc]
    rfl

end Mirrors

end Network

/-! ## Schedules -/

namespace Cluster

/-- Carries out commands one after another. -/
def carryOut : List Schedule → Cluster → Except Fault (List Report × Cluster)
  | [], c => .ok ([], c)
  | s :: schedule, c => do
    let (report, c) ← c.step s
    let (reports, c) ← carryOut schedule c
    return (report :: reports, c)

variable {n : Nat} {config : Config}

/-- The replicas are numbered, and started from one configuration. -/
theorem startReplicas_eq_ok {id : ReplicaId} {scripts : List (List UInt64)}
    {replicas : List (Replica Script Journal)}
    (h : startReplicas n config id scripts = .ok replicas) :
    replicas.map Replica.id = (List.range scripts.length).map (fun k => id + .ofNat k) ∧
    ∀ r ∈ replicas, ∃ draws, Replica.start r.id n config ⟨draws⟩ Journal.empty = .ok r := by
  induction scripts generalizing id replicas with
  | nil => cases h; simp
  | cons draws scripts ih =>
    obtain ⟨r, hr, h⟩ := bind_eq_ok.mp h
    obtain ⟨rest, hrest, h⟩ := bind_eq_ok.mp h
    cases h
    have hid : r.id = id := by
      obtain ⟨quorums, rfl⟩ := Replica.start_eq_ok hr
      rfl
    obtain ⟨hids, hstarted⟩ := ih hrest
    constructor
    · rw [List.map_cons, hid, hids, List.length_cons, List.range_succ_eq_map, List.map_cons,
        List.map_map]
      congr 1
      · simp
      · refine List.map_congr_left fun k _ => ?_
        simp [UInt64.ofNat_add, UInt64.add_assoc, UInt64.add_comm 1]
    · rintro r' (_ | ⟨_, hr'⟩)
      · exact ⟨draws, hid.symm ▸ hr⟩
      · exact hstarted r' hr'

/-- Members `1` to `n`, all of them fresh. -/
theorem start_eq_ok {scripts : List (List UInt64)} {c : Cluster} (hsize : n ≤ UInt64.size)
    (h : start n config scripts = .ok c) :
    (c.replicas.map Replica.id).Nodup ∧ c.replicas.length = n ∧
    (∀ r ∈ c.replicas, ∃ draws, Replica.start r.id n config ⟨draws⟩ Journal.empty = .ok r) ∧
    c = ⟨c.replicas, [], [], .none, [], []⟩ := by
  obtain ⟨replicas, hreplicas, rfl⟩ := map_eq_ok.mp h
  obtain ⟨hids, hstarted⟩ := startReplicas_eq_ok hreplicas
  rw [List.length_ofFn] at hids
  refine ⟨?_, by simpa using congrArg List.length hids, hstarted, rfl⟩
  rw [hids]
  refine List.nodup_range.map_on fun j hj k hk heq => ?_
  have hbelow : ∀ i ∈ List.range n, (UInt64.ofNat i).toNat = i := fun i hi =>
    UInt64.toNat_ofNat_of_lt' (Nat.lt_of_lt_of_le (List.mem_range.mp hi) hsize)
  rw [← hbelow j hj, ← hbelow k hk, (UInt64.add_right_inj _).mp heq]

/-- A replica is found under its identity. -/
theorem replica?_of_mem {c : Cluster} {r : Replica Script Journal}
    (hdistinct : (c.replicas.map Replica.id).Nodup) (hr : r ∈ c.replicas) :
    c.replica? r.id = some r := by
  unfold replica?
  cases hfind : c.replicas.find? (·.id = r.id) with
  | none => simpa using List.find?_eq_none.mp hfind r hr
  | some r' =>
    have hid : r'.id = r.id := by simpa using List.find?_some hfind
    rw [List.inj_on_of_nodup_map hdistinct (List.mem_of_find?_eq_some hfind) hr hid]

end Cluster

namespace Network

theorem Mirrors.carryOut {schedule : List Schedule} (h : Mirrors spec net c)
    (htimely : ∀ id, .backoffElapsed id ∉ schedule) :
    net.Follows (c.carryOut schedule) fun net' out => Mirrors spec net' out.2 ∧
      ∀ p, net'.effectsOf p =
        net.effectsOf p ++ out.1.flatMap fun report => effectsBy p report.effects := by
  induction schedule generalizing net c with
  | nil => exact .ok ⟨h, fun p => by simp⟩
  | cons s schedule ih =>
    unfold Cluster.carryOut
    refine (h.step fun id heq => htimely id (heq ▸ .head _)).bind ?_
    rintro net₁ ⟨report, c₁⟩ ⟨hfirst, heffects⟩
    refine (ih hfirst fun id hid => htimely id (.tail _ hid)).bind ?_
    rintro net₂ ⟨reports, c₂⟩ ⟨hmore, hrest⟩
    exact .ok ⟨hmore, fun p => by simp [hrest, heffects]⟩

/-- A fresh cluster has a fresh network. -/
theorem exists_mirrors_of_start {n : Nat} {config : Config} {scripts : List (List UInt64)}
    (hn : n ≠ 0) (hsize : n ≤ UInt64.size) (h : Cluster.start n config scripts = .ok c) :
    ∃ spec net, config.quorums n = .ok spec ∧ Fresh spec net ∧ Mirrors spec net c := by
  obtain ⟨hdistinct, hlength, hstarted, hc⟩ := Cluster.start_eq_ok hsize h
  obtain ⟨r₀, hr₀⟩ := List.exists_mem_of_length_pos (hlength ▸ Nat.pos_of_ne_zero hn)
  let net : Network Script Journal :=
    { members := c.replicas.map Replica.id
      replica := fun p => (c.replica? p).getD r₀
      past := [] }
  have hreplica : ∀ r ∈ c.replicas, net.replica r.id = r := fun r hr => by
    show (c.replica? r.id).getD r₀ = r
    rw [Cluster.replica?_of_mem hdistinct hr, Option.getD_some]
  have hn' : net.members.length = n := (List.length_map _).trans hlength
  obtain ⟨draws₀, hstart₀⟩ := hstarted r₀ hr₀
  have hspec := Replica.quorums_of_start hstart₀
  have hfresh : Fresh r₀.quorums net :=
    { distinct := hdistinct
      past := rfl
      started := by
        refine ⟨config, hn'.symm ▸ hspec, fun id hid => ?_⟩
        obtain ⟨r, hr, rfl⟩ := List.mem_map.mp hid
        obtain ⟨draws, hstart⟩ := hstarted r hr
        exact ⟨⟨draws⟩, Journal.empty, by rw [hn', hreplica r hr, hstart]⟩ }
  refine ⟨r₀.quorums, net, hspec, hfresh, ⟨net, hfresh, .refl⟩, rfl, hreplica, ?_, ?_, ?_,
    fun q => Nat.zero_le _⟩
  · rw [hc]; nofun
  · rw [hc]; nofun
  · rw [hc]; exact List.nodup_nil

/-- **Every schedule takes steps of a network**, as long as no delay is let pass but by settling.
What comes of a fresh cluster are the replicas, the messages in the queue and the delays that are
due in a reachable network, and the reports hold the effects of every member in order. A schedule
that ends in a fault has brought a member of the network to a limit. -/
theorem mirrored_of_schedule {n : Nat} {config : Config} {scripts : List (List UInt64)}
    {start : Cluster} {schedule : List Schedule} (hn : n ≠ 0) (hsize : n ≤ UInt64.size)
    (hstart : Cluster.start n config scripts = .ok start)
    (htimely : ∀ id, .backoffElapsed id ∉ schedule) :
    ∃ spec fresh, config.quorums n = .ok spec ∧ Fresh spec fresh ∧
      (∀ reports c, start.carryOut schedule = .ok (reports, c) →
        ∃ net, Steps fresh net ∧ Mirrors spec net c ∧
          ∀ p, net.effectsOf p = reports.flatMap fun report => effectsBy p report.effects) ∧
      ∀ f, start.carryOut schedule = .error f →
        ∃ net id input, Steps fresh net ∧ id ∈ net.members ∧ net.Possible id input ∧
          (net.replica id).AtLimit input f := by
  obtain ⟨spec, fresh, hspec, hfresh, hmirrors⟩ := exists_mirrors_of_start hn hsize hstart
  have hfollows := hmirrors.carryOut htimely
  refine ⟨spec, fresh, hspec, hfresh, fun reports c hc => ?_, fun f hf => ?_⟩
  · rw [hc] at hfollows
    obtain ⟨net, hsteps, hnet, heffects⟩ := hfollows
    refine ⟨net, hsteps, hnet, fun p => ?_⟩
    rw [heffects, effectsOf, hfresh.past]
    rfl
  · rw [hf] at hfollows
    exact hfollows.atLimit hmirrors.reachable

end Network

end PaxosLog
