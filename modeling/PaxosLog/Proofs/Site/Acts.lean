import PaxosLog.Site.Calls

/-!
# What can happen at a site

`Site.act` is one thing that happens at a site: a host is started, its handle is used, a route is
changed, a host handles one event, a timer goes off, time passes. Which of the waiting hosts has its
turn next, and when a timer goes off, is open: acts leave the order in which things happen to
whoever gives them, and so a result about all lists of acts holds under every scheduler. Hosts are
named by their numbers, since two of them may have the same identity.

**`exists_acts_of_step`**: the scheduler of `Site.step` is one of them. What a step makes of a site
is what some acts make of it, up to the notes that are cleared with the report.
-/

namespace PaxosLog

/-! ## Members -/

theorem nodup_eraseDups {α : Type} [BEq α] [LawfulBEq α] : ∀ l : List α, l.eraseDups.Nodup
  | [] => List.nodup_nil
  | a :: l => by
    rw [List.eraseDups_cons]
    refine List.nodup_cons.mpr ⟨?_, nodup_eraseDups _⟩
    rw [List.mem_eraseDups, List.mem_filter]
    simp
termination_by l => l.length
decreasing_by exact Nat.lt_succ_of_le (List.length_filter_le ..)

theorem eraseDups_of_nodup {α : Type} [BEq α] [LawfulBEq α] {l : List α} (h : l.Nodup) :
    l.eraseDups = l := by
  induction l with
  | nil => rfl
  | cons a l ih =>
    obtain ⟨ha, hl⟩ := List.nodup_cons.mp h
    rw [List.eraseDups_cons, List.filter_eq_self.mpr fun b hb => ?_, ih hl]
    simpa using fun heq : b = a => ha (heq ▸ hb)

namespace Host

variable {members : List ReplicaId}

@[simp] theorem mem_normalize {p : ReplicaId} : p ∈ normalize members ↔ p ∈ members := by
  rw [normalize, List.mem_eraseDups, List.mem_mergeSort]

theorem nodup_normalize : (normalize members).Nodup := nodup_eraseDups _

/-- Members in ascending order stay as they are. -/
theorem normalize_of_pairwise (h : members.Pairwise (· < ·)) : normalize members = members := by
  rw [normalize, List.mergeSort_of_pairwise, eraseDups_of_nodup]
  · exact h.imp fun hlt heq => absurd (heq ▸ hlt) Std.lt_irrefl
  · exact h.imp fun hlt => by simpa using Std.le_of_lt hlt

end Host

/-- A host starts with a fresh replica, which is a member, and an empty inbox. -/
theorem Host.start_eq_ok {ρ σ : Type} {id : ReplicaId} {members : List ReplicaId} {config : Config}
    {source : ρ} {machine : σ} {h : Host ρ σ}
    (hs : Host.start id members config source machine = .ok h) :
    id ∈ normalize members ∧ ∃ replica,
      Replica.start id (normalize members).length config source machine = .ok replica ∧
      h = ⟨id, normalize members, .running replica []⟩ := by
  unfold Host.start at hs
  simp only at hs
  split at hs
  · rename_i hid
    refine ⟨hid, ?_⟩
    cases hr : Replica.start id (normalize members).length config source machine with
    | error e => rw [hr] at hs; cases hs
    | ok replica =>
      rw [hr] at hs
      exact ⟨replica, rfl, (Except.ok.inj hs).symm⟩
  · cases hs

/-- What can be done with a host through its handle. -/
inductive Operation where
  | submit (command : Bytes)
  | status
  | deliver (m : Message)
  | shutdown
deriving DecidableEq

namespace Site

/-- One thing that can happen at a site. -/
inductive Act (ρ σ : Type) where
  /-- A host is started, if its members and its configuration are accepted. -/
  | start (id : ReplicaId) (members : List ReplicaId) (config : Config) (source : ρ) (machine : σ)
  /-- The handle of host number `k` is used. -/
  | operate (k : Nat) (op : Operation)
  | kill (k : Nat)
  /-- Messages to the replica of host number `k` go to that host from now on. -/
  | register (k : Nat)
  | disconnect (id : ReplicaId)
  /-- The `i`-th of those that wait has its turn. -/
  | turn (i : Nat)
  /-- The `i`-th timer goes off. -/
  | expire (i : Nat)
  /-- The clock shows another time. -/
  | wait (now : Nat)
  /-- Whoever has the replica of a stopped host lets go of it. -/
  | release (k : Nat)

variable {ρ σ : Type}

/-- Host number `k` takes events. -/
def isOpen (site : Site ρ σ) (k : Nat) : Bool := site.hosts[k]?.any Host.isOpen

theorem isOpen_eq {site : Site ρ σ} {k : Nat} {h : Host ρ σ} (hk : site.hosts[k]? = some h) :
    site.isOpen k = h.isOpen := by
  rw [isOpen, hk]
  rfl

theorem isOpen_of_none {site : Site ρ σ} {k : Nat} (hk : site.hosts[k]? = none) :
    site.isOpen k = false := by
  rw [isOpen, hk]
  rfl

/-- Puts an event into the inbox of host number `k`; refused if that host has stopped. -/
def callTo (site : Site ρ σ) (k : Nat) (e : Event) : CallAnswer × Site ρ σ :=
  match site.post k e with
  | (true, site) => (.done, site)
  | (false, site) => (.refused .shutdown, site)

/-- Uses the handle of host number `k`. -/
def operate (site : Site ρ σ) (k : Nat) : Operation → CallAnswer × Site ρ σ
  | .submit command =>
    let (request, clients) := site.clients.submit command
    match { site with clients }.callTo k (.request request) with
    | (.done, site) => (.done, site)
    | (answer, site) =>
      (answer, { site with clients := (site.clients.hangUp request.ticket).2 })
  | .status =>
    let query := site.queries.length
    match { site with queries := site.queries ++ [Query.waiting] }.callTo k (.status query) with
    | (.done, site) => (.done, site)
    | (answer, _) => (answer, site)
  | .deliver m => site.callTo k (.message m)
  | .shutdown => site.callTo k .shutdown

variable [RandomSource ρ] [StateMachine σ]

/-- What an act makes of a site. -/
def act (site : Site ρ σ) : Act ρ σ → Site ρ σ
  | .start id members config source machine =>
    match Host.start id members config source machine with
    | .ok h => { site with hosts := site.hosts ++ [h] }
    | .error _ => site
  | .operate k op => (site.operate k op).2
  | .kill k => (site.modifyHost k Host.kill).wake k
  | .register k =>
    match site.hosts[k]? with
    | some h => site.register h.id k
    | none => site
  | .disconnect id => site.disconnect id
  | .turn i =>
    match site.ready[i]? with
    | some task => { site with ready := task :: site.ready.eraseIdx i }.turn
    | none => site
  | .expire i =>
    match site.timers[i]? with
    | some t => ({ site with timers := site.timers.eraseIdx i }.post t.host .backoffElapsed).2
    | none => site
  | .wait now => { site with now }
  | .release k => if site.isOpen k then site else site.remove k

/-- Acts one after another. -/
def acts (site : Site ρ σ) (as : List (Act ρ σ)) : Site ρ σ := as.foldl act site

theorem acts_append (site : Site ρ σ) (as more : List (Act ρ σ)) :
    site.acts (as ++ more) = (site.acts as).acts more := List.foldl_append

theorem acts_concat (site : Site ρ σ) (as : List (Act ρ σ)) (a : Act ρ σ) :
    site.acts (as ++ [a]) = (site.acts as).act a := by
  rw [acts_append]
  rfl

/-! ## The scheduler -/

/-- Some acts lead from `site` to `site'`. -/
def Leads (site site' : Site ρ σ) : Prop := ∃ as, site' = site.acts as

namespace Leads

variable {site site₁ site' : Site ρ σ}

theorem refl : Leads site site := ⟨[], rfl⟩

theorem act (a : Act ρ σ) : Leads site (site.act a) := ⟨[a], rfl⟩

theorem trans (h : Leads site site₁) (h' : Leads site₁ site') : Leads site site' := by
  obtain ⟨as, rfl⟩ := h
  obtain ⟨more, rfl⟩ := h'
  exact ⟨as ++ more, (acts_append ..).symm⟩

end Leads

omit [RandomSource ρ] [StateMachine σ] in
/-- A host is called through its handle. Without such a host, the number is that of none. -/
theorem call_eq (site : Site ρ σ) (id : ReplicaId) (e : Event) :
    site.call id e = site.callTo (site.hosts.findIdx (·.id = id)) e := by
  unfold call hostOf?
  cases hk : site.hosts.findIdx? (·.id = id) with
  | none =>
    rw [List.findIdx?_eq_none_iff_findIdx_eq.mp hk, callTo, post,
      List.getElem?_eq_none (Nat.le_refl _)]
  | some k =>
    rw [(List.findIdx?_eq_some_iff_findIdx_eq.mp hk).2]
    rfl

omit [RandomSource ρ] [StateMachine σ] in
/-- The calls that use a handle. -/
theorem make_eq_operate (site : Site ρ σ) (id : ReplicaId) {k : Nat}
    (hk : k = site.hosts.findIdx (·.id = id)) :
    (∀ command, site.make (.submit id command) = site.operate k (.submit command)) ∧
    site.make (.status id) = site.operate k .status ∧
    (∀ m, site.make (.deliver id m) = site.operate k (.deliver m)) ∧
    site.make (.shutdown id) = site.operate k .shutdown := by
  subst hk
  refine ⟨fun command => ?_, ?_, fun m => call_eq .., call_eq ..⟩
  · exact congrArg
      (fun called : CallAnswer × Site ρ σ => match called with
        | (.done, site) => (CallAnswer.done, site)
        | (answer, refused) => (answer, { refused with
            clients := (refused.clients.hangUp site.clients.receivers.length).2 }))
      (call_eq { site with clients := (site.clients.submit command).2 } id
        (.request (site.clients.submit command).1))
  · exact congrArg
      (fun called : CallAnswer × Site ρ σ => match called with
        | (.done, site) => (CallAnswer.done, site)
        | (answer, _) => (answer, site))
      (call_eq { site with queries := site.queries ++ [.waiting] } id (.status site.queries.length))

/-- A call is an act, on the host that it means. -/
theorem leads_make (site : Site ρ σ) (c : Call) : Leads site (site.make c).2 := by
  have hoperate : ∀ k op, Leads site (site.operate k op).2 :=
    fun k op => ⟨[.operate k op], rfl⟩
  cases c with
  | submit id command =>
    rw [(make_eq_operate site id rfl).1]
    exact hoperate _ _
  | status id =>
    rw [(make_eq_operate site id rfl).2.1]
    exact hoperate _ _
  | deliver id m =>
    rw [(make_eq_operate site id rfl).2.2.1]
    exact hoperate _ _
  | shutdown id =>
    rw [(make_eq_operate site id rfl).2.2.2]
    exact hoperate _ _
  | register id =>
    simp only [make, hostOf?]
    cases hk : site.hosts.findIdx? (·.id = id) with
    | none => exact .refl
    | some k =>
      obtain ⟨hlt, hid, -⟩ := List.findIdx?_eq_some_iff_getElem.mp hk
      refine ⟨[.register k], ?_⟩
      show site.register id k = match site.hosts[k]? with
        | some h => site.register h.id k
        | none => site
      rw [List.getElem?_eq_getElem hlt]
      simp only [of_decide_eq_true hid]
  | disconnect id => exact .act (.disconnect id)
  | kill id =>
    simp only [make, killHost, hostOf?]
    cases site.hosts.findIdx? (·.id = id) with
    | none => exact .refl
    | some k => exact .act (.kill k)

theorem leads_makeAll (site : Site ρ σ) (cs : List Call) : Leads site (site.makeAll cs).2 := by
  induction cs generalizing site with
  | nil => exact .refl
  | cons c rest ih => exact (leads_make site c).trans (ih _)

/-- A turn of the queue is a turn of the first one in it. -/
theorem leads_turn (site : Site ρ σ) : Leads site site.turn := by
  refine ⟨[.turn 0], ?_⟩
  show _ = match site.ready[0]? with
    | some task => ({ site with ready := task :: site.ready.eraseIdx 0 } : Site ρ σ).turn
    | none => site
  cases hready : site.ready with
  | nil =>
    rw [List.getElem?_nil, turn, hready]
  | cons task rest =>
    rw [List.getElem?_cons_zero, List.eraseIdx_cons_zero]
    show _ = ({ site with ready := task :: rest } : Site ρ σ).turn
    rw [← hready]

theorem leads_run (limit : Nat) (site : Site ρ σ) : Leads site (run limit site) := by
  induction limit generalizing site with
  | zero => exact .refl
  | succ limit ih =>
    unfold run
    split
    · exact .refl
    · exact (leads_turn site).trans (ih _)

omit [RandomSource ρ] [StateMachine σ] in
theorem mem_timers_of_firstDue {site : Site ρ σ} {time : Nat} {t : Timer}
    (h : site.firstDue? time = some t) : t ∈ site.timers := by
  -- the best one so far stays, or the next one takes its place
  have hfold : ∀ f : Option Timer → Timer → Option Timer,
      (∀ best u, f best u = best ∨ f best u = some u) → ∀ (l : List Timer) (best : Option Timer),
        l.foldl f best = some t → best = some t ∨ t ∈ l := by
    intro f hf l
    induction l with
    | nil => exact fun best hbest => .inl hbest
    | cons u l ih =>
      intro best hbest
      rcases ih _ hbest with hu | hmem
      · rcases hf best u with hsame | hnew
        · exact .inl (hsame.symm.trans hu)
        · rw [hnew, Option.some_inj] at hu
          exact .inr (hu ▸ .head _)
      · exact .inr (.tail _ hmem)
  refine (hfold _ (fun best u => ?_) _ _ h).elim (fun hnone => ?_)
    fun hmem => (List.mem_filter.mp hmem).1
  · cases best with
    | none => exact .inr rfl
    | some b =>
      simp only
      split
      · exact .inr rfl
      · exact .inl rfl
  · cases hnone

theorem leads_fireUntil (limit time rounds : Nat) (site : Site ρ σ) :
    Leads site (fireUntil limit time rounds site) := by
  induction rounds generalizing site with
  | zero => exact .refl
  | succ rounds ih =>
    unfold fireUntil
    split
    · exact .act (.wait time)
    · rename_i t ht
      -- The clock moves to the timer, which then goes off.
      refine .trans ?_ ((leads_run limit _).trans (ih _))
      refine (Leads.act (.wait (max site.now t.due))).trans ⟨[.expire (site.timers.idxOf t)], ?_⟩
      have hlt := List.idxOf_lt_length_of_mem (mem_timers_of_firstDue ht)
      show _ = match site.timers[site.timers.idxOf t]? with
        | some t => _
        | none => _
      rw [List.getElem?_eq_getElem hlt, List.getElem_idxOf hlt,
        List.erase_eq_eraseIdx_of_idxOf rfl]
      rfl

theorem leads_release (site : Site ρ σ) : Leads site site.release := by
  unfold release
  suffices h : ∀ (ks : List Nat) (site : Site ρ σ), Leads site (ks.foldl
      (fun site k => match site.hosts[k]? with
        | some h => if h.isOpen then site else site.remove k
        | none => site) site) from h _ site
  intro ks
  induction ks with
  | nil => exact fun _ => .refl
  | cons k ks ih =>
    refine fun site => Leads.trans ⟨[.release k], ?_⟩ (ih _)
    show _ = if site.isOpen k then site else site.remove k
    cases hk : site.hosts[k]? with
    | none => simp [isOpen, remove, hk]
    | some h => simp [isOpen, hk]

/-- **The scheduler makes acts.** -/
theorem exists_acts_of_step (limit : Nat) (site : Site ρ σ) (s : SiteStep) :
    ∃ as, (site.step limit s).2 =
      { site.acts as with
        clients := (site.acts as).clients.collect.2, effects := [], queries := [] } := by
  cases s with
  | calls cs =>
    obtain ⟨as, has⟩ := ((leads_makeAll site cs).trans (leads_run limit _)).trans (leads_release _)
    refine ⟨as, ?_⟩
    rw [← has]
    rfl
  | advance time =>
    obtain ⟨as, has⟩ :=
      (leads_fireUntil limit (site.now + time.nanos) limit site).trans (leads_release _)
    refine ⟨as, ?_⟩
    rw [← has]
    rfl

/-- The hosts that a site starts with, each with a route to it. -/
theorem leads_startHosts {members : List ReplicaId} {config : Config} {machine : σ}
    {hosts : List (ReplicaId × ρ)} {site site' : Site ρ σ}
    (h : startHosts members config machine hosts site = .ok site') : Leads site site' := by
  induction hosts generalizing site with
  | nil =>
    cases h
    exact .refl
  | cons first rest ih =>
    obtain ⟨id, source⟩ := first
    unfold startHosts at h
    cases hstart : Host.start id members config source machine with
    | error e => rw [hstart] at h; cases h
    | ok host =>
      rw [hstart] at h
      refine Leads.trans ⟨[.start id members config source machine, .register site.hosts.length],
        ?_⟩ (ih h)
      obtain ⟨-, replica, -, rfl⟩ := Host.start_eq_ok hstart
      simp [acts, act, hstart]

end Site

end PaxosLog
