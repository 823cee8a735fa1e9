import PaxosLog.Proofs.Site.Turns

/-!
# The course of a host

What came into the inbox of a host, what it handled and what its replica sent are read off the acts
and the sites on which they happened (`Site.trace`). `Served` says how the three belong together: a
host handles what comes in, one event after another and in order, until it stops, and its replica is
the one that runs on the inputs among the events handled.

* **`Served.act`**: every act keeps this, for every host.
* **`exists_served`**: so it holds of every host after any acts that begin without hosts. A host was
  started among them, with a fresh replica, and nothing had come for it before.
-/

namespace PaxosLog

variable {ρ σ : Type}

/-- The event that the host handles when it has its turn. A shutdown is not handled, it ends the
host. -/
def Host.handles? (h : Host ρ σ) : Option Event :=
  match h.state with
  | .running _ (e :: _) => if e = .shutdown then none else some e
  | _ => none

/-- The replica of the host, unless it is gone. -/
def Host.replica? (h : Host ρ σ) : Option (Replica ρ σ) :=
  match h.state with
  | .running replica _ => some replica
  | .killed replica _ => some replica
  | .returned replica => some replica
  | .gone => none

variable [RandomSource ρ] [StateMachine σ]

/-- What a host is after its turn, the event that it handled, and the effects of its replica. -/
inductive Host.Turned (now : Nat) (h : Host ρ σ) : Option Event → Host ρ σ → List Effect → Prop
  | input (replica replica' : Replica ρ σ) (e : Event) (inbox : List Event) (input : Input)
      (time : Duration) {out : List Effect} (hs : h.state = .running replica (e :: inbox))
      (he : e.input? = some input) (htime : Duration.ofNanos now = .ok time)
      (hstep : replica.step time input = .ok (replica', out)) :
      Turned now h (some e) { h with state := .running replica' inbox } out
  | fault (replica : Replica ρ σ) (e : Event) (inbox : List Event)
      (hs : h.state = .running replica (e :: inbox)) (hne : e ≠ .shutdown) :
      Turned now h (some e) { h with state := .gone } []
  | status (replica : Replica ρ σ) (query : Nat) (inbox : List Event)
      (hs : h.state = .running replica (.status query :: inbox)) :
      Turned now h (some (.status query)) { h with state := .running replica inbox } []
  | shutdown (replica : Replica ρ σ) (inbox : List Event)
      (hs : h.state = .running replica (.shutdown :: inbox)) :
      Turned now h none { h with state := .returned replica } []
  | bury (replica : Replica ρ σ) (inbox : List Event) (hs : h.state = .killed replica inbox) :
      Turned now h none { h with state := .gone } []
  | rest (hidle : h.inbox = []) : Turned now h none h []

theorem Host.turned_serve (now : Nat) (h : Host ρ σ) :
    h.Turned now h.handles? (h.serve now).1 (h.serve now).2 := by
  unfold serve handles?
  cases hs : h.state with
  | running replica inbox =>
    cases inbox with
    | nil => exact .rest (by simp [Host.inbox, hs])
    | cons e inbox =>
      have hinput : ∀ input, e.input? = some input → e ≠ .shutdown := by
        rintro input he rfl
        cases he
      simp only
      cases he : e.input? with
      | some input =>
        simp only [hinput input he, if_false]
        cases hstep : (Duration.ofNanos now).bind fun now => replica.step now input with
        | error f => exact .fault replica e inbox hs (hinput input he)
        | ok result =>
          obtain ⟨time, htime, hstep⟩ := bind_eq_ok.mp hstep
          exact .input replica result.1 e inbox input time hs he htime hstep
      | none =>
        cases e with
        | status query => exact .status replica query inbox hs
        | shutdown => exact .shutdown replica inbox hs
        | message | request | backoffElapsed => cases he
  | killed replica inbox => exact .bury replica inbox hs
  | returned | gone => exact .rest (by simp [Host.inbox, hs])

namespace Site

/-- The event that host number `j` handles in an act. -/
def handles? (site : Site ρ σ) (a : Act ρ σ) (j : Nat) : Option Event :=
  match a with
  | .turn i =>
    if site.ready[i]? = some (.host j) then site.hosts[j]?.bind Host.handles? else none
  | _ => none

/-- The effects of the replica of host number `j` in an act. -/
def emits (site : Site ρ σ) (a : Act ρ σ) (j : Nat) : List Effect :=
  match a with
  | .turn i =>
    if site.ready[i]? = some (.host j) then
      site.hosts[j]?.toList.flatMap fun h => (h.serve site.now).2
    else []
  | _ => []

/-- Acts, each with the site on which it happens. -/
def trace (site : Site ρ σ) : List (Act ρ σ) → List (Site ρ σ × Act ρ σ)
  | [] => []
  | a :: as => (site, a) :: (site.act a).trace as

theorem trace_append (site : Site ρ σ) (as more : List (Act ρ σ)) :
    site.trace (as ++ more) = site.trace as ++ (site.acts as).trace more := by
  induction as generalizing site with
  | nil => rfl
  | cons a as ih => exact congrArg ((site, a) :: ·) (ih (site.act a))

/-- What came into the inbox of host number `j`, in order. -/
def came (site : Site ρ σ) (as : List (Act ρ σ)) (j : Nat) : List Posting :=
  (site.trace as).flatMap fun p => p.1.arrivals p.2 j

/-- What host number `j` handled, in order. -/
def handled (site : Site ρ σ) (as : List (Act ρ σ)) (j : Nat) : List Event :=
  (site.trace as).flatMap fun p => (p.1.handles? p.2 j).toList

/-- The effects of the replica of host number `j`, in order. -/
def emitted (site : Site ρ σ) (as : List (Act ρ σ)) (j : Nat) : List Effect :=
  (site.trace as).flatMap fun p => p.1.emits p.2 j

variable {site : Site ρ σ} {as more : List (Act ρ σ)} {a : Act ρ σ} {j : Nat} {h : Host ρ σ}

theorem came_append :
    site.came (as ++ more) j = site.came as j ++ (site.acts as).came more j := by
  rw [came, trace_append, List.flatMap_append]
  rfl

theorem handled_append :
    site.handled (as ++ more) j = site.handled as j ++ (site.acts as).handled more j := by
  rw [handled, trace_append, List.flatMap_append]
  rfl

theorem emitted_append :
    site.emitted (as ++ more) j = site.emitted as j ++ (site.acts as).emitted more j := by
  rw [emitted, trace_append, List.flatMap_append]
  rfl

theorem came_singleton : site.came [a] j = site.arrivals a j := List.append_nil _

theorem handled_singleton : site.handled [a] j = (site.handles? a j).toList := List.append_nil _

theorem emitted_singleton : site.emitted [a] j = site.emits a j := List.append_nil _

end Site

/-- A host that began with the replica `fresh` is in this state after the events `came` came in: it
handled the events `handled` so far, with these effects. -/
inductive Served (fresh : Replica ρ σ) (came handled : List Event) (effects : List Effect) :
    HostState ρ σ → Prop
  | running (replica : Replica ρ σ) (inbox : List Event) (hcame : came = handled ++ inbox)
      (hnone : .shutdown ∉ handled)
      (hrun : fresh.Run (handled.filterMap Event.input?) replica effects) :
      Served fresh came handled effects (.running replica inbox)
  | killed (replica : Replica ρ σ) (inbox : List Event) (hcame : came = handled ++ inbox)
      (hnone : .shutdown ∉ handled)
      (hrun : fresh.Run (handled.filterMap Event.input?) replica effects) :
      Served fresh came handled effects (.killed replica inbox)
  | returned (replica : Replica ρ σ) (rest : List Event)
      (hcame : came = handled ++ .shutdown :: rest) (hnone : .shutdown ∉ handled)
      (hrun : fresh.Run (handled.filterMap Event.input?) replica effects) :
      Served fresh came handled effects (.returned replica)
  | gone (hcame : handled <+: came) (hnone : .shutdown ∉ handled) :
      Served fresh came handled effects .gone

namespace Served

variable {fresh : Replica ρ σ} {came handled : List Event} {effects : List Effect} {h : Host ρ σ}

theorem start (replica : Replica ρ σ) : Served replica [] [] [] (.running replica []) :=
  .running _ _ rfl List.not_mem_nil .start

/-- A host that is gone leaves the rest of its inbox. -/
theorem release (hs : Served fresh came handled effects h.state) :
    Served fresh came handled effects .gone := by
  generalize h.state = state at hs
  cases hs with
  | running replica inbox hcame hnone => exact .gone ⟨_, hcame.symm⟩ hnone
  | killed replica inbox hcame hnone => exact .gone ⟨_, hcame.symm⟩ hnone
  | returned replica rest hcame hnone => exact .gone ⟨_, hcame.symm⟩ hnone
  | gone hcame hnone => exact .gone hcame hnone

theorem kill (hs : Served fresh came handled effects h.state) :
    Served fresh came handled effects h.kill.state := by
  unfold Host.kill
  cases hstate : h.state with
  | running replica inbox =>
    rw [hstate] at hs
    cases hs with
    | running _ _ hcame hnone hrun => exact .killed _ _ hcame hnone hrun
  | killed | returned | gone => exact hs

/-- Events come in behind the others. -/
theorem postAll (hs : Served fresh came handled effects h.state) (events : List Event) :
    Served fresh (came ++ events) handled effects (h.postAll events).state := by
  cases hstate : h.state with
  | running replica inbox =>
    rw [hstate] at hs
    rw [Host.postAll_running hstate]
    cases hs with
    | running _ _ hcame hnone hrun =>
      exact .running _ _ (by rw [hcame, List.append_assoc]) hnone hrun
  | killed replica inbox =>
    rw [hstate] at hs
    rw [Host.postAll_killed hstate]
    cases hs with
    | killed _ _ hcame hnone hrun =>
      exact .killed _ _ (by rw [hcame, List.append_assoc]) hnone hrun
  | returned replica =>
    rw [Host.postAll_of_not_isOpen (by simp [Host.isOpen, hstate])]
    rw [hstate] at hs ⊢
    cases hs with
    | returned _ rest hcame hnone hrun =>
      exact .returned _ (rest ++ events) (by rw [hcame, List.append_assoc]; rfl) hnone hrun
  | gone =>
    rw [Host.postAll_of_not_isOpen (by simp [Host.isOpen, hstate])]
    rw [hstate] at hs ⊢
    cases hs with
    | gone hcame hnone => exact .gone (hcame.trans (List.prefix_append ..)) hnone

/-- **A turn of the host.** -/
theorem serve (hs : Served fresh came handled effects h.state) (now : Nat) :
    Served fresh came (handled ++ h.handles?.toList) (effects ++ (h.serve now).2)
      (h.serve now).1.state := by
  have hturned := Host.turned_serve now h
  generalize h.handles? = e, (h.serve now).1 = h', (h.serve now).2 = out at hturned
  cases hturned with
  | input replica replica' e inbox input time hstate he htime hstep =>
    rw [hstate] at hs
    cases hs with
    | running _ _ hcame hnone hrun =>
      refine .running _ _ (by simpa using hcame) ?_ ?_
      · simp only [Option.toList_some, List.mem_append, List.mem_singleton, not_or]
        exact ⟨hnone, fun hshut => by rw [← hshut] at he; cases he⟩
      · rw [List.filterMap_append]
        simpa [he] using hrun.step time input hstep
  | fault replica e inbox hstate hne =>
    rw [hstate] at hs
    cases hs with
    | running _ _ hcame hnone hrun =>
      refine .gone ⟨inbox, by simpa using hcame.symm⟩ ?_
      simpa using ⟨hnone, hne.symm⟩
  | status replica query inbox hstate =>
    rw [hstate] at hs
    cases hs with
    | running _ _ hcame hnone hrun =>
      refine .running _ _ (by simpa using hcame) (by simpa using hnone) ?_
      rw [List.filterMap_append]
      simpa [List.filterMap_cons, Event.input?] using hrun
  | shutdown replica inbox hstate =>
    rw [hstate] at hs
    cases hs with
    | running _ _ hcame hnone hrun =>
      simpa using Served.returned replica inbox hcame hnone hrun
  | bury replica inbox hstate => simpa using hs.release
  | rest hidle => simpa using hs

end Served

/-- A host keeps its identity and its members. -/
theorem Site.own_same (site : Site ρ σ) (a : Site.Act ρ σ) (j : Nat) (h : Host ρ σ) :
    (site.own a j h).id = h.id ∧ (site.own a j h).members = h.members := by
  have hkill : h.kill.id = h.id ∧ h.kill.members = h.members := by
    unfold Host.kill
    cases h.state <;> exact ⟨rfl, rfl⟩
  have hserve : (h.serve site.now).1.id = h.id ∧ (h.serve site.now).1.members = h.members := by
    have hturned := Host.turned_serve site.now h
    generalize h.handles? = e, (h.serve site.now).1 = h', (h.serve site.now).2 = out at hturned ⊢
    cases hturned <;> exact ⟨rfl, rfl⟩
  cases a with
  | kill k => simp only [own]; split <;> first | exact hkill | exact ⟨rfl, rfl⟩
  | release k => simp only [own]; split <;> exact ⟨rfl, rfl⟩
  | turn i => simp only [own]; split <;> first | exact hserve | exact ⟨rfl, rfl⟩
  | _ => exact ⟨rfl, rfl⟩

/-- **Every act keeps this.** -/
theorem Served.act {fresh : Replica ρ σ} {came handled : List Event} {effects : List Effect}
    {site : Site ρ σ} {j : Nat} {h : Host ρ σ} (hs : Served fresh came handled effects h.state)
    (hj : site.hosts[j]? = some h) (a : Site.Act ρ σ) :
    Served fresh (came ++ (site.arrivals a j).map Posting.event)
      (handled ++ (site.handles? a j).toList) (effects ++ site.emits a j)
      ((site.own a j h).postAll ((site.arrivals a j).map Posting.event)).state := by
  refine Served.postAll ?_ _
  have hsame : Served fresh came (handled ++ []) (effects ++ []) h.state := by simpa using hs
  cases a with
  | kill k =>
    simp only [Site.own, Site.handles?, Site.emits]
    split
    · exact hsame.kill
    · exact hsame
  | release k =>
    simp only [Site.own, Site.handles?, Site.emits]
    split
    · exact hsame.release
    · exact hsame
  | turn i =>
    simp only [Site.own, Site.handles?, Site.emits, hj, Option.bind_some, Option.toList_some,
      List.flatMap_singleton]
    split
    · exact hs.serve site.now
    · exact hsame
  | _ => exact hsame

namespace Site

variable {site : Site ρ σ} {as : List (Act ρ σ)} {j : Nat} {h : Host ρ σ}

/-- Where no events are taken, nothing happens. -/
theorem quiet_of_not_isOpen (hc : site.isOpen j = false) (a : Act ρ σ) :
    site.arrivals a j = [] ∧ site.handles? a j = none ∧ site.emits a j = [] := by
  refine ⟨by simp [arrivals, hc], ?_⟩
  cases a with
  | turn i =>
    simp only [handles?, emits]
    cases hj : site.hosts[j]? with
    | none => simp
    | some h =>
      rw [isOpen, hj] at hc
      have hturned : h.handles? = none ∧ (h.serve site.now).2 = [] := by
        unfold Host.handles? Host.serve
        cases hs : h.state with
        | running | killed => simp [Host.isOpen, hs] at hc
        | returned | gone => exact ⟨rfl, rfl⟩
      simp [hturned]
  | _ => exact ⟨rfl, rfl⟩

/-- **Hosts after acts.** Before it was started, nothing came for it. -/
theorem course_of_acts (as : List (Act ρ σ)) (j : Nat) :
    match (empty.acts as).hosts[j]? with
    | none => empty.came as j = [] ∧ empty.handled as j = [] ∧ empty.emitted as j = []
    | some h => ∃ members config source machine fresh,
        .start h.id members config source machine ∈ as ∧
        h.members = Host.normalize members ∧ h.id ∈ h.members ∧
        Replica.start h.id h.members.length config source machine = .ok fresh ∧
        Served fresh ((empty.came as j).map Posting.event) (empty.handled as j)
          (empty.emitted as j) h.state := by
  induction as using List.reverseRecOn with
  | nil => exact ⟨rfl, rfl, rfl⟩
  | append_singleton as a ih =>
    rw [acts_concat, came_append, handled_append, emitted_append, came_singleton,
      handled_singleton, emitted_singleton]
    cases hj : (empty.acts as).hosts[j]? with
    | some h =>
      rw [hj] at ih
      obtain ⟨members, config, source, machine, fresh, hmem, hmembers, hid, hstart, hserved⟩ := ih
      rw [getElem?_act _ a hj]
      obtain ⟨hid', hmembers'⟩ := own_same (empty.acts as) a j h
      simp only [Host.id_postAll, Host.members_postAll, hid', hmembers']
      refine ⟨members, config, source, machine, fresh, List.mem_append_left _ hmem, hmembers, hid,
        hstart, ?_⟩
      rw [List.map_append]
      exact hserved.act hj a
    | none =>
      rw [hj] at ih
      obtain ⟨hcame, hhandled, hemitted⟩ := quiet_of_not_isOpen (isOpen_of_none hj) a
      rw [hcame, hhandled, hemitted, ih.1, ih.2.1, ih.2.2]
      cases hnew : ((empty.acts as).act a).hosts[j]? with
      | none => exact ⟨rfl, rfl, rfl⟩
      | some h =>
        obtain ⟨-, id, members, config, source, machine, rfl, hstart⟩ :=
          getElem?_act_of_none hj hnew
        obtain ⟨hid, fresh, hfresh, rfl⟩ := Host.start_eq_ok hstart
        exact ⟨members, config, source, machine, fresh, by simp, rfl, hid, hfresh, .start fresh⟩

/-- **What a host did** since it was started. -/
theorem exists_served (hj : (empty.acts as).hosts[j]? = some h) :
    ∃ members config source machine fresh,
      .start h.id members config source machine ∈ as ∧
      h.members = Host.normalize members ∧ h.id ∈ h.members ∧
      Replica.start h.id h.members.length config source machine = .ok fresh ∧
      Served fresh ((empty.came as j).map Posting.event) (empty.handled as j)
        (empty.emitted as j) h.state := by
  have hcourse := course_of_acts as j
  rwa [hj] at hcourse

/-- A host that stopped stays as it is, or is let go. -/
theorem state_own_of_not_isOpen (hc : h.isOpen = false) (site : Site ρ σ) (a : Act ρ σ) (j : Nat) :
    (site.own a j h).state = h.state ∨ (site.own a j h).state = .gone := by
  have hstill : h.kill = h ∧ (h.serve site.now).1 = h := by
    unfold Host.isOpen at hc
    unfold Host.kill Host.serve
    cases hs : h.state with
    | running | killed => rw [hs] at hc; cases hc
    | returned | gone => exact ⟨rfl, rfl⟩
  cases a with
  | kill k => simp [own, hstill.1]
  | release k =>
    simp only [own]
    split
    · exact .inr rfl
    · exact .inl rfl
  | turn i => simp [own, hstill.2]
  | _ => exact .inl rfl

/-- **A host that stopped does nothing more**, and nothing comes in any more. -/
theorem stopped_acts (hj : site.hosts[j]? = some h) (hc : h.isOpen = false)
    (as : List (Act ρ σ)) :
    site.came as j = [] ∧ site.handled as j = [] ∧ site.emitted as j = [] ∧
      ∃ h', (site.acts as).hosts[j]? = some h' ∧ h'.isOpen = false ∧
        (h'.state = h.state ∨ h'.state = .gone) := by
  induction as using List.reverseRecOn with
  | nil => exact ⟨rfl, rfl, rfl, h, hj, hc, .inl rfl⟩
  | append_singleton as a ih =>
    obtain ⟨hcame, hhandled, hemitted, h', hj', hc', hstate⟩ := ih
    obtain ⟨hcame', hhandled', hemitted'⟩ := quiet_of_not_isOpen ((isOpen_eq hj').trans hc') a
    have hact := getElem?_act _ a hj'
    rw [Host.postAll_of_not_isOpen (isOpen_own hc')] at hact
    rw [acts_concat, came_append, handled_append, emitted_append, came_singleton,
      handled_singleton, emitted_singleton, hcame, hhandled, hemitted, hcame', hhandled', hemitted']
    refine ⟨rfl, rfl, rfl, _, hact, isOpen_own hc', ?_⟩
    rcases state_own_of_not_isOpen hc' (site.acts as) a j with hsame | hgone
    · rw [hsame]
      exact hstate
    · exact .inr hgone

/-! ## Hosts of three members -/

/-- The host of replica `id` of three, with nothing to do. -/
def hostOfTrio (id : ReplicaId) : Host Script Journal :=
  ⟨id, [1, 2, 3], .running (Network.trio.replica id) []⟩

/-- It is what its start makes. -/
theorem acts_trio (site : Site Script Journal) (id : ReplicaId) (hid : id ∈ [1, 2, 3])
    (as : List (Act Script Journal)) :
    site.acts (.start id [1, 2, 3] .standard ⟨[]⟩ .empty :: as) =
      ({ site with hosts := site.hosts ++ [hostOfTrio id] } : Site Script Journal).acts as := by
  have hstart : Host.start id [1, 2, 3] .standard (⟨[]⟩ : Script) Journal.empty =
      .ok (hostOfTrio id) := by
    unfold Host.start
    rw [Host.normalize_of_pairwise (by decide)]
    simp only [hid, if_true]
    rfl
  simp only [acts, List.foldl_cons, act, hstart]

end Site

end PaxosLog
