import Mathlib.Data.Finset.Card
import PaxosLog.Proofs.Network.Order
import PaxosLog.Proofs.Site.Course

/-!
# Messages between hosts

A message is a letter to a replica. It comes into the inbox of the host that the routing table has
for the replica, as it was sent, if that host takes events; otherwise nothing happens.

* `Site.route?_act`: the routing table changes by registrations and disconnections only.
* **`Site.send_of_isOpen`**, `Site.send_of_not_isOpen`: what becomes of one letter.
* **`Site.came_from`**: what comes from one host are the letters that it sent while there was a
  route for them, in order.
* **`transport_exact`**: members, broadcasts, letters, routes and inboxes, in every run.
-/

namespace PaxosLog

variable {ρ σ : Type}

namespace Host

theorem length_normalize (members : List ReplicaId) :
    (normalize members).length = members.toFinset.card := by
  rw [← List.toFinset_card_of_nodup nodup_normalize]
  congr 1
  ext p
  simp

/-- **A broadcast is one letter to each of the other members.** -/
theorem count_letters_broadcast {h : Host ρ σ} (hnodup : h.members.Nodup) (m : Message)
    (letter : ReplicaId × Message) :
    (h.letters (.broadcast m)).count letter =
      if letter.1 ∈ h.members ∧ letter.1 ≠ h.id ∧ letter.2 = m then 1 else 0 := by
  obtain ⟨p, m'⟩ := letter
  have hdistinct : (h.peers.map (·, m)).Nodup :=
    (hnodup.filter _).map fun p q heq => (Prod.mk.inj heq).1
  show (h.peers.map (·, m)).count (p, m') = _
  rw [hdistinct.count]
  congr 1
  simp only [peers, List.mem_map, List.mem_filter, decide_eq_true_eq, Prod.mk.injEq, eq_iff_iff]
  constructor
  · rintro ⟨q, ⟨hq, hne⟩, rfl, rfl⟩
    exact ⟨hq, hne, rfl⟩
  · rintro ⟨hp, hne, rfl⟩
    exact ⟨p, ⟨hp, hne⟩, rfl, rfl⟩

end Host

namespace Site

variable {site : Site ρ σ} {j k : Nat} {h : Host ρ σ}

/-! ## One letter -/

/-- **A letter comes in once**, as it was sent, behind what is there already. -/
theorem send_of_isOpen {p : ReplicaId} (m : Message) (hroute : site.route? p = some k)
    (hk : site.hosts[k]? = some h) (ho : h.isOpen = true) :
    site.send p m = { site with
        hosts := site.hosts.modify k (·.post (.message m)), ready := (site.wake k).ready } ∧
      (h.post (.message m)).inbox = h.inbox ++ [.message m] := by
  refine ⟨?_, Host.inbox_postAll ho [.message m]⟩
  rw [send_eq, hroute]
  simp only [post, hk, ho, if_true]
  rfl

/-- A letter without a host to take it is lost. -/
theorem send_of_not_isOpen {p : ReplicaId} (m : Message)
    (hlost : ∀ k, site.route? p = some k → site.isOpen k = false) : site.send p m = site := by
  rw [send_eq]
  cases hroute : site.route? p with
  | none => rfl
  | some k =>
    have hc := hlost k hroute
    unfold isOpen at hc
    simp only [post]
    cases hk : site.hosts[k]? with
    | none => rfl
    | some h =>
      rw [hk] at hc
      simp only [show h.isOpen = false from hc, Bool.false_eq_true, if_false]

/-! ## Routes -/

theorem route?_disconnect (site : Site ρ σ) (id p : ReplicaId) :
    (site.disconnect id).route? p = if id = p then none else site.route? p := by
  unfold route? disconnect
  rw [List.find?_filter]
  by_cases hid : id = p
  · subst hid
    rw [if_pos rfl, List.find?_eq_none.mpr (by simp)]
    rfl
  · rw [if_neg hid]
    congr 2
    funext route
    by_cases hp : route.1 = p
    · simp [hp, Ne.symm hid]
    · simp [hp]

theorem route?_register (site : Site ρ σ) (id : ReplicaId) (k : Nat) (p : ReplicaId) :
    (site.register id k).route? p = if id = p then some k else site.route? p := by
  have hothers := route?_disconnect site id p
  unfold route? disconnect at hothers
  unfold route? register
  rw [List.find?_cons]
  by_cases hid : id = p
  · simp [hid]
  · simp only [hid, decide_false, if_false] at hothers ⊢
    exact hothers

theorem routes_post (site : Site ρ σ) (k : Nat) (e : Event) :
    (site.post k e).2.routes = site.routes :=
  (absorbs_post site ⟨none, k, e⟩).routes

theorem routes_remove (site : Site ρ σ) (k : Nat) : (site.remove k).routes = site.routes := by
  cases hk : site.hosts[k]? with
  | none => simp [remove, hk]
  | some h => rw [remove_eq hk]

variable [RandomSource ρ] [StateMachine σ]

theorem Serves.routes {site' : Site ρ σ} (hserves : Serves site k h site') :
    site'.routes = site.routes := by
  cases hserves with
  | input replica replica' e inbox input now effects hs he hstep hserve habsorbs =>
    exact habsorbs.routes
  | fault => exact routes_remove ..
  | status => rfl
  | shutdown =>
    rw [discard_eq]
    rfl
  | bury => exact routes_remove ..
  | rest => rfl

/-- **The routing table** changes by registrations and disconnections only. -/
theorem route?_act (site : Site ρ σ) (a : Act ρ σ) (p : ReplicaId) :
    (site.act a).route? p =
      match a with
      | .register k => match site.hosts[k]? with
        | some h => if h.id = p then some k else site.route? p
        | none => site.route? p
      | .disconnect id => if id = p then none else site.route? p
      | _ => site.route? p := by
  have hsame : ∀ {site' : Site ρ σ}, site'.routes = site.routes →
      site'.route? p = site.route? p := by
    intro site' hroutes
    unfold route?
    rw [hroutes]
  cases a with
  | start id members config source machine =>
    simp only [act]
    split <;> rfl
  | operate k op =>
    refine hsame (show (site.operate k op).2.routes = site.routes from ?_)
    cases ho : site.isOpen k with
    | true =>
      rw [operate_of_isOpen op ho, routes_post]
      cases op <;> rfl
    | false =>
      rw [operate_of_not_isOpen op ho]
      cases op <;> rfl
  | kill k => rfl
  | register k =>
    simp only [act]
    cases site.hosts[k]? with
    | none => rfl
    | some h => exact route?_register ..
  | disconnect id => exact route?_disconnect ..
  | turn i =>
    have hturns := turns_act site i
    generalize site.act (.turn i) = site' at hturns ⊢
    refine hsame ?_
    cases hturns with
    | idle hi => rfl
    | ring t hi hdue => exact routes_post ..
    | set t hi hdue => rfl
    | nobody k hi hk => rfl
    | serve k h hi hk hserves => exact hserves.routes
  | expire i =>
    simp only [act]
    split
    · exact hsame (routes_post ..)
    · rfl
  | wait now => rfl
  | release k =>
    simp only [act]
    split
    · rfl
    · exact hsame (routes_remove ..)

/-! ## What comes from a host -/

/-- The letters that host number `k` sends in an act. -/
def letters (site : Site ρ σ) (a : Act ρ σ) (k : Nat) : List (ReplicaId × Message) :=
  site.hosts[k]?.toList.flatMap fun h => (site.emits a k).flatMap h.letters

/-- The messages that host number `k` sends in an act to replicas that are routed to host number
`j`, if that takes events. -/
def sends (site : Site ρ σ) (a : Act ρ σ) (k j : Nat) : List Message :=
  if site.isOpen j then
    ((site.letters a k).filter fun letter => site.route? letter.1 = some j).map (·.2)
  else []

/-- The same of several acts, in order. -/
def sent (site : Site ρ σ) (as : List (Act ρ σ)) (k j : Nat) : List Message :=
  (site.trace as).flatMap fun p => p.1.sends p.2 k j

/-- The events among these that come from host number `k`. -/
def comesFrom (k : Nat) (mail : List Posting) : List Event :=
  (mail.filter (·.sender = some k)).map Posting.event

omit [RandomSource ρ] [StateMachine σ] in
theorem comesFrom_append (k : Nat) (mail more : List Posting) :
    comesFrom k (mail ++ more) = comesFrom k mail ++ comesFrom k more := by
  rw [comesFrom, List.filter_append, List.map_append]
  rfl

omit [RandomSource ρ] [StateMachine σ] in
/-- Of the mail of a host, what comes into an inbox are the letters with a route to it. -/
theorem comesFrom_letters (site : Site ρ σ) (k j : Nat) (letters : List (ReplicaId × Message)) :
    comesFrom k ((letters.filterMap (site.address k)).filter (·.host = j)) =
      ((letters.filter fun letter => site.route? letter.1 = some j).map (·.2)).map
        Event.message := by
  induction letters with
  | nil => rfl
  | cons letter letters ih =>
    cases hroute : site.route? letter.1 with
    | none =>
      rw [List.filterMap_cons_none (by rw [address, hroute]; rfl), ih]
      simp [hroute]
    | some i =>
      rw [List.filterMap_cons_some (b := ⟨some k, i, .message letter.2⟩)
        (by rw [address, hroute]; rfl)]
      by_cases hi : i = j
      · rw [List.filter_cons_of_pos (by simpa using hi)]
        simpa [hroute, hi, comesFrom] using ih
      · rw [List.filter_cons_of_neg (by simpa using hi), ih]
        simp [hroute, hi]

omit [RandomSource ρ] [StateMachine σ] in
theorem comesFrom_mail (site : Site ρ σ) (k j : Nat) (h : Host ρ σ) (effects : List Effect) :
    comesFrom k ((effects.flatMap (site.mail k h)).filter (·.host = j)) =
      (((effects.flatMap h.letters).filter fun letter => site.route? letter.1 = some j).map
        (·.2)).map Event.message := by
  induction effects with
  | nil => rfl
  | cons e effects ih =>
    have hfirst : comesFrom k ((site.mail k h e).filter (·.host = j)) =
        (((h.letters e).filter fun letter => site.route? letter.1 = some j).map (·.2)).map
          Event.message := by
      cases e with
      | retry q => by_cases hk : k = j <;> simp [mail, comesFrom, Host.letters, hk]
      | _ => exact comesFrom_letters ..
    simp only [List.flatMap_cons, List.filter_append, List.map_append, comesFrom_append, hfirst, ih]

omit [RandomSource ρ] [StateMachine σ] in
theorem comesFrom_eq_nil {k : Nat} {mail : List Posting} (h : ∀ p ∈ mail, p.sender ≠ some k) :
    comesFrom k mail = [] :=
  List.map_eq_nil_iff.mpr (List.filter_eq_nil_iff.mpr fun p hp => by simpa using h p hp)

theorem sends_eq_nil {a : Act ρ σ} (h : site.emits a k = []) : site.sends a k j = [] := by
  unfold sends letters
  rw [h]
  simp

/-- **What comes from a host in an act** are the messages that it sends. -/
theorem comesFrom_arrivals (site : Site ρ σ) (a : Act ρ σ) (k j : Nat) :
    comesFrom k (site.arrivals a j) = (site.sends a k j).map Event.message := by
  -- an act in which the host does not have its turn brings nothing from it
  have hquiet : (∀ p ∈ site.postings a, p.sender ≠ some k) → site.emits a k = [] →
      comesFrom k (site.arrivals a j) = (site.sends a k j).map Event.message := by
    intro hothers hemits
    rw [sends_eq_nil hemits]
    refine comesFrom_eq_nil fun p hp => ?_
    unfold arrivals at hp
    split at hp
    · exact hothers p (List.mem_filter.mp hp).1
    · cases hp
  cases a with
  | operate i op =>
    refine hquiet (fun p hp => ?_) rfl
    rw [List.mem_singleton.mp hp]
    simp
  | expire i =>
    refine hquiet (fun p hp => ?_) rfl
    obtain ⟨t, -, rfl⟩ := List.mem_map.mp hp
    simp
  | turn i =>
    cases hi : site.ready[i]? with
    | none => exact hquiet (by simp [postings, hi]) (by simp [emits, hi])
    | some task =>
      cases task with
      | timer t =>
        refine hquiet (fun p hp => ?_) (by simp [emits, hi])
        simp only [postings, hi] at hp
        split at hp
        · rw [List.mem_singleton.mp hp]
          simp
        · cases hp
      | host i' =>
        cases hg : site.hosts[i']? with
        | none =>
          refine hquiet (by simp [postings, hi, hg]) ?_
          by_cases hk : i' = k
          · simp [emits, ← hk, hg]
          · simp [emits, hi, hk]
        | some g =>
          by_cases hk : i' = k
          · subst hk
            unfold arrivals sends
            split
            · have hletters : site.letters (.turn i) i' =
                  (g.serve site.now).2.flatMap g.letters := by
                simp [letters, emits, hi, hg]
              simp only [postings, hi, hg, hletters]
              exact comesFrom_mail ..
            · rfl
          · refine hquiet (fun p hp => ?_) (by simp [emits, hi, hk])
            simp only [postings, hi, hg] at hp
            obtain ⟨e, -, hmail⟩ := List.mem_flatMap.mp hp
            rcases mem_mail hmail with ⟨q, -, rfl⟩ | ⟨letter, -, -, hsender, -⟩
            · simp
            · simpa [hsender] using hk
  | _ => exact hquiet (by simp [postings]) rfl

/-- **What comes from a host** are the messages that it sends. -/
theorem came_from (site : Site ρ σ) (as : List (Act ρ σ)) (k j : Nat) :
    comesFrom k (site.came as j) = (site.sent as k j).map Event.message := by
  unfold came sent
  induction site.trace as with
  | nil => rfl
  | cons p rest ih =>
    rw [List.flatMap_cons, List.flatMap_cons, comesFrom_append, List.map_append, ih,
      comesFrom_arrivals]

end Site

variable [RandomSource ρ] [StateMachine σ]

/-- The replica of a host works with the members of the host. -/
theorem Site.clusterSize_eq {as : List (Site.Act ρ σ)} {j : Nat} {h : Host ρ σ}
    {replica : Replica ρ σ} (hj : (Site.empty.acts as).hosts[j]? = some h)
    (hreplica : h.replica? = some replica) :
    replica.quorums.clusterSize = h.members.length := by
  obtain ⟨members, config, source, machine, fresh, -, -, -, hstart, hserved⟩ :=
    Site.exists_served hj
  have hsize : fresh.quorums.clusterSize = h.members.length :=
    Config.clusterSize_of_quorums (Replica.quorums_of_start hstart)
  have hrun : ∃ inputs effects, fresh.Run inputs replica effects := by
    unfold Host.replica? at hreplica
    generalize h.state = state at hserved hreplica
    cases hserved with
    | running _ _ _ _ hrun | killed _ _ _ _ hrun | returned _ _ _ _ hrun =>
      cases hreplica
      exact ⟨_, _, hrun⟩
    | gone => cases hreplica
  obtain ⟨inputs, effects, hrun⟩ := hrun
  rw [hrun.quorums_eq (.start hstart), hsize]

/-- **Messages between hosts are neither lost nor duplicated, altered or reordered.** Whatever
happens at a site, in whatever order, and whatever the list of members was that a host was started
with: its replica works with as many members as there are distinct ones in the list, and a broadcast
is one letter to each of them but the host itself. A letter comes in once, as it is, behind what is
in the inbox of the host that its receiver is routed to, if that takes events, and nothing else
happens; any other letter changes nothing. The table has the route that was registered last, unless
it was disconnected since. So what came into the inbox of a host from any host are the messages that
this one sent to it while there was a route for them and the inbox took events, in order; and what
came in was handled in order, up to what is still there. -/
theorem transport_exact {as : List (Site.Act ρ σ)} {j : Nat} {h : Host ρ σ}
    (hj : (Site.empty.acts as).hosts[j]? = some h) :
    (∃ members config source machine, .start h.id members config source machine ∈ as ∧
      h.members.length = members.toFinset.card ∧
      (∀ replica, h.replica? = some replica →
        replica.quorums.clusterSize = members.toFinset.card) ∧
      ∀ m letter, (h.letters (.broadcast m)).count letter =
        if letter.1 ∈ members ∧ letter.1 ≠ h.id ∧ letter.2 = m then 1 else 0) ∧
    (∀ (site : Site ρ σ) (p : ReplicaId) (m : Message) (k : Nat) (g : Host ρ σ),
      site.route? p = some k → site.hosts[k]? = some g → g.isOpen = true →
        site.send p m = { site with
            hosts := site.hosts.modify k (·.post (.message m)), ready := (site.wake k).ready } ∧
          (g.post (.message m)).inbox = g.inbox ++ [.message m]) ∧
    (∀ (site : Site ρ σ) (p : ReplicaId) (m : Message),
      (∀ k, site.route? p = some k → site.isOpen k = false) → site.send p m = site) ∧
    (∀ (site : Site ρ σ) (a : Site.Act ρ σ) (p : ReplicaId),
      (site.act a).route? p =
        match a with
        | .register k => match site.hosts[k]? with
          | some g => if g.id = p then some k else site.route? p
          | none => site.route? p
        | .disconnect id => if id = p then none else site.route? p
        | _ => site.route? p) ∧
    (∀ k, Site.comesFrom k (Site.empty.came as j) =
      (Site.empty.sent as k j).map Event.message) ∧
    (h.isOpen = true →
      (Site.empty.came as j).map Posting.event = Site.empty.handled as j ++ h.inbox) := by
  obtain ⟨members, config, source, machine, fresh, hmem, hmembers, -, hstart, hserved⟩ :=
    Site.exists_served hj
  have hcard : h.members.length = members.toFinset.card := by
    rw [hmembers, Host.length_normalize]
  refine ⟨⟨members, config, source, machine, hmem, hcard, fun replica hreplica => ?_,
    fun m letter => ?_⟩, fun site p m k g => Site.send_of_isOpen m,
    fun site p m => Site.send_of_not_isOpen m, Site.route?_act,
    fun k => Site.came_from Site.empty as k j, fun ho => ?_⟩
  · rw [Site.clusterSize_eq hj hreplica, hcard]
  · rw [Host.count_letters_broadcast (hmembers ▸ Host.nodup_normalize), hmembers]
    simp only [Host.mem_normalize]
  · unfold Host.isOpen at ho
    unfold Host.inbox
    generalize h.state = state at hserved ho ⊢
    cases hserved with
    | running _ _ hcame | killed _ _ hcame => exact hcame
    | returned | gone => cases ho

namespace Site

/-- Hosts 1 and 2 of three ask to be elected, both with a route to them. Then messages to replica 2
are lost, host 1 hears of the other ballot, and its answer to replica 2 is lost. -/
def disconnected : List (Act Script Journal) :=
  [.start 1 [1, 2, 3] .standard ⟨[]⟩ .empty, .start 2 [1, 2, 3] .standard ⟨[]⟩ .empty,
    .register 0, .register 1, .operate 0 (.submit [65]), .operate 1 (.submit [66]), .turn 0,
    .turn 1, .disconnect 2, .turn 1]

end Site

/-- Host 2 got the message that was sent before, and no other one. -/
theorem transport_exact_disconnected :
    ∃ h : Host Script Journal, (Site.empty.acts Site.disconnected).hosts[1]? = some h ∧
      h.inbox = [.message (.prepare ⟨⟨1, some 1⟩, 1⟩)] ∧
      (Site.empty.came Site.disconnected 1).map Posting.event =
        Site.empty.handled Site.disconnected 1 ++ h.inbox ∧
      Site.comesFrom 0 (Site.empty.came Site.disconnected 1) =
        (Site.empty.sent Site.disconnected 0 1).map Event.message := by
  obtain ⟨h, hj, hcheck⟩ := (Option.any_eq_true _ _).mp (show
    ((Site.empty.acts Site.disconnected).hosts[1]?.any fun h =>
      h.isOpen && h.inbox = [.message (.prepare ⟨⟨1, some 1⟩, 1⟩)]) = true by
    rw [Site.disconnected, Site.acts_trio _ 1 (by decide), Site.acts_trio _ 2 (by decide)]
    decide +kernel)
  rw [Bool.and_eq_true, decide_eq_true_eq] at hcheck
  obtain ⟨-, -, -, -, hfrom, hall⟩ := transport_exact hj
  exact ⟨h, hj, hcheck.2, hall hcheck.1, hfrom 0⟩

end PaxosLog
