import PaxosLog.Proofs.Site.Mail

/-!
# What an act makes of each host

A host changes in two ways: by what it does itself when it has its turn (`Host.serve`), and by the
events that come into its inbox. What an act puts into inboxes are its `Site.postings`; those for a
host that takes events arrive (`Site.arrivals`).

* `Serves`, `Turns`: the ways in which a host, or whatever else waits, has its turn.
* **`operate_of_isOpen`**, **`operate_of_not_isOpen`**: what comes of the use of a handle.
* **`getElem?_act`**: after an act every host is what it made of itself, with the arrivals at the
  end of its inbox.
-/

namespace PaxosLog

variable {ρ σ : Type}

namespace Operation

/-- The event that an operation brings. A submission takes the next ticket, a question the next
number. -/
def event (op : Operation) (site : Site ρ σ) : Event :=
  match op with
  | .submit command => .request ⟨site.clients.receivers.length, command⟩
  | .status => .status site.queries.length
  | .deliver m => .message m
  | .shutdown => .shutdown

/-- The site, once somebody waits for what comes of the operation. -/
def enrol (op : Operation) (site : Site ρ σ) : Site ρ σ :=
  match op with
  | .submit _ => { site with clients := ⟨site.clients.receivers ++ [.waiting]⟩ }
  | .status => { site with queries := site.queries ++ [.waiting] }
  | _ => site

/-- The site, if the operation is refused. -/
def turnedAway (op : Operation) (site : Site ρ σ) : Site ρ σ :=
  match op with
  | .submit _ => { site with clients := ⟨site.clients.receivers ++ [.gone]⟩ }
  | _ => site

end Operation

/-- What a host does when it has its turn, and the effects of its replica: it handles the event in
front. If its replica faults, or if it was killed, it is gone. -/
def Host.serve [RandomSource ρ] [StateMachine σ] (now : Nat) (h : Host ρ σ) :
    Host ρ σ × List Effect :=
  match h.state with
  | .running replica (e :: inbox) =>
    match e.input? with
    | some input =>
      match (Duration.ofNanos now).bind fun now => replica.step now input with
      | .ok (replica, effects) => ({ h with state := .running replica inbox }, effects)
      | .error _ => ({ h with state := .gone }, [])
    | none =>
      if e = .shutdown then ({ h with state := .returned replica }, [])
      else ({ h with state := .running replica inbox }, [])
  | .killed .. => ({ h with state := .gone }, [])
  | _ => (h, [])

namespace Site

variable {site site₁ site' : Site ρ σ} {k : Nat} {h : Host ρ σ}

/-- The questions, after those among the events were refused. -/
def refused (events : List Event) (queries : List Query) : List Query :=
  events.foldl
    (fun queries e =>
      match e with
      | .status query => queries.set query .refused
      | _ => queries)
    queries

/-! ## Turns -/

variable [RandomSource ρ] [StateMachine σ]

/-- What comes of the turn of host number `k`, which is `h`. -/
inductive Serves (site : Site ρ σ) (k : Nat) (h : Host ρ σ) : Site ρ σ → Prop
  /-- Its replica takes an input. -/
  | input (replica replica' : Replica ρ σ) (e : Event) (inbox : List Event) (input : Input)
      (now : Duration) (effects : List Effect) {site' : Site ρ σ}
      (hs : h.state = .running replica (e :: inbox)) (he : e.input? = some input)
      (hstep : replica.step now input = .ok (replica', effects))
      (hserve : h.serve site.now = ({ h with state := .running replica' inbox }, effects))
      (habsorbs : Absorbs (site.modifyHost k fun h => { h with state := .running replica' inbox })
        site' (effects.flatMap (site.mail k h)) (effects.flatMap (site.alarm k))
        (answers effects)) : Serves site k h site'
  /-- Its replica faults. -/
  | fault (replica : Replica ρ σ) (e : Event) (inbox : List Event)
      (hs : h.state = .running replica (e :: inbox))
      (hserve : h.serve site.now = ({ h with state := .gone }, [])) :
      Serves site k h (site.remove k)
  /-- A question is answered. -/
  | status (replica : Replica ρ σ) (query : Nat) (inbox : List Event)
      (hs : h.state = .running replica (.status query :: inbox)) :
      Serves site k h
        ({ site with queries := site.queries.set query (.answered replica.status) }.modifyHost k
          fun h => { h with state := .running replica inbox })
  /-- It stops. -/
  | shutdown (replica : Replica ρ σ) (inbox : List Event)
      (hs : h.state = .running replica (.shutdown :: inbox)) :
      Serves site k h
        ((site.discard inbox).modifyHost k fun h => { h with state := .returned replica })
  /-- It was killed. -/
  | bury (replica : Replica ρ σ) (inbox : List Event) (hs : h.state = .killed replica inbox) :
      Serves site k h ({ site with ready := site.ready.tail }.remove k)
  /-- It has nothing to do. -/
  | rest (hidle : h.inbox = [])
      (hserve : h.serve site.now = (h, [])) :
      Serves site k h { site with ready := site.ready.tail }

theorem serves_feed {replica : Replica ρ σ} {e : Event} {inbox : List Event} {input : Input}
    (hs : h.state = .running replica (e :: inbox)) (he : e.input? = some input) :
    Serves site k h (site.feed k h replica inbox input) := by
  have hserve : h.serve site.now =
      match (Duration.ofNanos site.now).bind fun now => replica.step now input with
      | .ok (replica, effects) => ({ h with state := .running replica inbox }, effects)
      | .error _ => ({ h with state := .gone }, []) := by
    rw [Host.serve, hs]
    simp only [he]
  unfold feed
  cases hstep : (Duration.ofNanos site.now).bind fun now => replica.step now input with
  | error f =>
    rw [hstep] at hserve
    exact .fault replica e inbox hs hserve
  | ok result =>
    rw [hstep] at hserve
    obtain ⟨now, -, hstep⟩ := bind_eq_ok.mp hstep
    exact .input replica result.1 e inbox input now result.2 hs he hstep hserve
      (absorbs_absorbAll _ k h _)

/-- **A turn of a host.** -/
theorem serves_turn {rest : List Task} (hready : site.ready = .host k :: rest)
    (hk : site.hosts[k]? = some h) : Serves site k h site.turn := by
  have htail : rest = site.ready.tail := by rw [hready]; rfl
  unfold turn
  rw [hready]
  simp only [hk]
  cases hs : h.state with
  | running replica inbox =>
    cases inbox with
    | nil =>
      rw [htail]
      exact .rest (by simp [Host.inbox, hs]) (by simp [Host.serve, hs])
    | cons e inbox =>
      cases e with
      | message m => exact serves_feed hs rfl
      | request r => exact serves_feed hs rfl
      | backoffElapsed => exact serves_feed hs rfl
      | status query => exact .status replica query inbox hs
      | shutdown => exact .shutdown replica inbox hs
  | killed replica inbox =>
    rw [htail]
    exact .bury replica inbox hs
  | returned replica | gone =>
    rw [htail]
    exact .rest (by simp [Host.inbox, hs]) (by simp [Host.serve, hs])

/-- What comes of the turn of the `i`-th of those that wait. -/
inductive Turns (site : Site ρ σ) (i : Nat) : Site ρ σ → Prop
  /-- Nobody waits there. -/
  | idle (hi : site.ready[i]? = none) : Turns site i site
  /-- A timer has no delay left. -/
  | ring (t : Timer) (hi : site.ready[i]? = some (.timer t)) (hdue : t.due ≤ site.now) :
      Turns site i
        ({ site with ready := site.ready.eraseIdx i }.post t.host .backoffElapsed).2
  /-- A timer is set. -/
  | set (t : Timer) (hi : site.ready[i]? = some (.timer t)) (hdue : ¬ t.due ≤ site.now) :
      Turns site i
        { site with ready := site.ready.eraseIdx i, timers := site.timers ++ [t] }
  | nobody (k : Nat) (hi : site.ready[i]? = some (.host k)) (hk : site.hosts[k]? = none) :
      Turns site i { site with ready := site.ready.eraseIdx i }
  /-- A host has its turn. -/
  | serve (k : Nat) (h : Host ρ σ) (hi : site.ready[i]? = some (.host k))
      (hk : site.hosts[k]? = some h) {site' : Site ρ σ}
      (hserves : Serves { site with ready := .host k :: site.ready.eraseIdx i } k h site') :
      Turns site i site'

/-- **A turn.** -/
theorem turns_act (site : Site ρ σ) (i : Nat) : Turns site i (site.act (.turn i)) := by
  simp only [act]
  cases hi : site.ready[i]? with
  | none => exact .idle hi
  | some task =>
    cases task with
    | timer t =>
      show Turns site i (startTimer { site with ready := site.ready.eraseIdx i } t)
      unfold startTimer
      by_cases hdue : t.due ≤ site.now
      · simp only [hdue, if_true]
        exact .ring t hi hdue
      · simp only [hdue, if_false]
        exact .set t hi hdue
    | host k =>
      cases hk : site.hosts[k]? with
      | none =>
        simp only [turn, hk]
        exact .nobody k hi hk
      | some h => exact .serve k h hi hk (serves_turn rfl hk)

omit [RandomSource ρ] [StateMachine σ] in
/-- What is discarded leaves its requests and its questions. -/
theorem discard_eq (site : Site ρ σ) (events : List Event) :
    site.discard events = { site with
      clients := site.clients.lose (events.flatMap Event.requests)
      queries := refused events site.queries } := by
  induction events generalizing site with
  | nil => rfl
  | cons e events ih =>
    show discard _ events = _
    rw [ih]
    cases e <;> rfl

omit [RandomSource ρ] [StateMachine σ] in
theorem remove_eq (hk : site.hosts[k]? = some h) :
    site.remove k = { site with
      hosts := site.hosts.modify k fun h => { h with state := .gone }
      clients := (site.clients.lose h.requests).lose (h.inbox.flatMap Event.requests)
      queries := refused h.inbox site.queries } := by
  unfold remove
  simp only [hk, discard_eq]
  rfl

/-! ## Acts -/

omit [RandomSource ρ] [StateMachine σ] in
theorem callTo_of_isOpen (e : Event) (ho : site.isOpen k = true) :
    site.callTo k e = (.done, (site.post k e).2) := by
  unfold isOpen at ho
  unfold callTo post
  cases hk : site.hosts[k]? with
  | none => simp [hk] at ho
  | some h =>
    rw [hk] at ho
    simp only [show h.isOpen = true from ho, if_true]

omit [RandomSource ρ] [StateMachine σ] in
theorem callTo_of_not_isOpen (e : Event) (hc : site.isOpen k = false) :
    site.callTo k e = (.refused .shutdown, site) := by
  unfold isOpen at hc
  unfold callTo post
  cases hk : site.hosts[k]? with
  | none => rfl
  | some h =>
    rw [hk] at hc
    simp only [show h.isOpen = false from hc, Bool.false_eq_true, if_false]

omit [RandomSource ρ] [StateMachine σ] in
/-- A handle takes an operation as long as its host takes events. -/
theorem operate_of_isOpen (op : Operation) (ho : site.isOpen k = true) :
    site.operate k op = (.done, ((op.enrol site).post k (op.event site)).2) := by
  have hcall : (op.enrol site).callTo k (op.event site) = _ :=
    callTo_of_isOpen _ (by cases op <;> exact ho)
  cases op with
  | submit command | status =>
    simp only [Operation.enrol, Operation.event] at hcall ⊢
    simp only [operate, Clients.submit, hcall]
  | deliver m | shutdown => exact hcall

omit [RandomSource ρ] [StateMachine σ] in
/-- A handle of a host that stopped refuses. -/
theorem operate_of_not_isOpen (op : Operation) (hc : site.isOpen k = false) :
    site.operate k op = (.refused .shutdown, op.turnedAway site) := by
  have hcall : (op.enrol site).callTo k (op.event site) = _ :=
    callTo_of_not_isOpen _ (by cases op <;> exact hc)
  cases op with
  | submit command | status =>
    simp only [Operation.enrol, Operation.event] at hcall
    simp [operate, Clients.submit, hcall, Clients.hangUp, Receiver.hangUp, Operation.turnedAway]
  | deliver m | shutdown => exact hcall

/-- What an act puts into inboxes. -/
def postings (site : Site ρ σ) : Act ρ σ → List Posting
  | .operate k op => [⟨none, k, op.event site⟩]
  | .turn i =>
    match site.ready[i]? with
    | some (.host k) =>
      match site.hosts[k]? with
      | some h => (h.serve site.now).2.flatMap (site.mail k h)
      | none => []
    | some (.timer t) => if t.due ≤ site.now then [⟨none, t.host, .backoffElapsed⟩] else []
    | none => []
  | .expire i => site.timers[i]?.toList.map fun t => ⟨none, t.host, .backoffElapsed⟩
  | _ => []

/-- What comes into the inbox of host number `j` in an act. -/
def arrivals (site : Site ρ σ) (a : Act ρ σ) (j : Nat) : List Posting :=
  if site.isOpen j then (site.postings a).filter (·.host = j) else []

/-- What host number `j`, which is `h`, makes of itself in an act. -/
def own (site : Site ρ σ) (a : Act ρ σ) (j : Nat) (h : Host ρ σ) : Host ρ σ :=
  match a with
  | .kill k => if k = j then h.kill else h
  | .release k => if k = j ∧ h.isOpen = false then { h with state := .gone } else h
  | .turn i => if site.ready[i]? = some (.host j) then (h.serve site.now).1 else h
  | _ => h

/-- What a host makes of itself does not open it again. -/
theorem isOpen_own {a : Act ρ σ} {j : Nat} (hc : h.isOpen = false) :
    (site.own a j h).isOpen = false := by
  have hserve : (h.serve site.now).1.isOpen = false := by
    unfold Host.isOpen at hc
    unfold Host.serve
    cases hs : h.state with
    | running | killed => rw [hs] at hc; cases hc
    | returned | gone => simp [Host.isOpen, hs]
  have hkill : h.kill.isOpen = false := by
    unfold Host.isOpen at hc
    unfold Host.kill
    cases hs : h.state with
    | running | killed => rw [hs] at hc; cases hc
    | returned | gone => simp [Host.isOpen, hs]
  cases a with
  | kill k => simp only [own]; split <;> assumption
  | release k => simp only [own]; split <;> first | rfl | assumption
  | turn i => simp only [own]; split <;> assumption
  | _ => exact hc

/-- Postings for a host that takes no events are lost. -/
theorem postAll_arrivals {a : Act ρ σ} {j : Nat} {g : Host ρ σ} (hj : site.hosts[j]? = some h)
    (hg : h.isOpen = false → g.isOpen = false) :
    g.postAll ((site.arrivals a j).map Posting.event) =
      g.postAll (mailFor j (site.postings a)) := by
  unfold arrivals
  rw [isOpen_eq hj]
  cases hopen : h.isOpen with
  | true => rfl
  | false => rw [Host.postAll_of_not_isOpen (hg hopen), Host.postAll_of_not_isOpen (hg hopen)]

omit [RandomSource ρ] [StateMachine σ] in
theorem getElem?_modify_hosts (k : Nat) (f : Host ρ σ → Host ρ σ) {j : Nat} {g : Host ρ σ}
    (hj : site.hosts[j]? = some g) :
    (site.hosts.modify k f)[j]? = some (if k = j then f g else g) := by
  rw [List.getElem?_modify, hj]
  rfl

/-- Hosts after a turn of one of them. -/
theorem Serves.getElem? (hserves : Serves site k h site') (hk : site.hosts[k]? = some h) {j : Nat}
    {g : Host ρ σ} (hj : site.hosts[j]? = some g) :
    site'.hosts[j]? = some ((if k = j then (g.serve site.now).1 else g).postAll
      (mailFor j ((h.serve site.now).2.flatMap (site.mail k h)))) := by
  have hself : k = j → g = h := by
    rintro rfl
    rw [hj] at hk
    exact Option.some_inj.mp hk
  have hmodified : ∀ (f : Host ρ σ → Host ρ σ), (h.serve site.now).1 = f h →
      (site.hosts.modify k f)[j]? = some (if k = j then (g.serve site.now).1 else g) := by
    intro f hf
    rw [getElem?_modify_hosts k f hj]
    split
    · rename_i hkj
      rw [hself hkj, hf]
    · rfl
  cases hserves with
  | input replica replica' e inbox input now effects hs he hstep hserve habsorbs =>
    rw [habsorbs.hosts j, hserve]
    show (site.hosts.modify k _)[j]?.map _ = _
    rw [hmodified (fun h => { h with state := .running replica' inbox }) (by rw [hserve])]
    rfl
  | fault replica e inbox hs hserve =>
    rw [remove_eq hk, hserve]
    exact hmodified _ (by rw [hserve])
  | status replica query inbox hs =>
    have hserve : h.serve site.now = ({ h with state := .running replica inbox }, []) := by
      simp [Host.serve, hs, Event.input?]
    rw [hserve]
    exact hmodified _ (by rw [hserve])
  | shutdown replica inbox hs =>
    have hserve : h.serve site.now = ({ h with state := .returned replica }, []) := by
      simp [Host.serve, hs, Event.input?]
    rw [hserve, discard_eq]
    exact hmodified _ (by rw [hserve])
  | bury replica inbox hs =>
    have hserve : h.serve site.now = ({ h with state := .gone }, []) := by
      simp [Host.serve, hs]
    have hk' : ({ site with ready := site.ready.tail } : Site ρ σ).hosts[k]? = some h := hk
    rw [hserve, remove_eq hk']
    exact hmodified _ (by rw [hserve])
  | rest hidle hserve =>
    rw [hserve]
    show site.hosts[j]? = _
    rw [hj]
    split
    · rename_i hkj
      rw [hself hkj, hserve]
      rfl
    · rfl

omit [RandomSource ρ] [StateMachine σ] in
/-- A posting reaches its host. -/
theorem getElem?_post (site : Site ρ σ) (p : Posting) {j : Nat} {g : Host ρ σ}
    (hj : site.hosts[j]? = some g) :
    (site.post p.host p.event).2.hosts[j]? = some (g.postAll (mailFor j [p])) := by
  rw [(absorbs_post site p).hosts j, hj]
  rfl

/-- **Hosts after an act.** -/
theorem getElem?_act (site : Site ρ σ) (a : Act ρ σ) {j : Nat} (hj : site.hosts[j]? = some h) :
    (site.act a).hosts[j]? =
      some ((site.own a j h).postAll ((site.arrivals a j).map Posting.event)) := by
  rw [postAll_arrivals hj isOpen_own]
  cases a with
  | start id members config source machine =>
    show (site.act (.start id members config source machine)).hosts[j]? = some h
    simp only [act]
    split
    · rw [List.getElem?_append_left (List.getElem?_eq_some_iff.mp hj).1]
      exact hj
    · exact hj
  | operate k op =>
    show (site.operate k op).2.hosts[j]? = some (h.postAll (mailFor j [⟨none, k, op.event site⟩]))
    cases ho : site.isOpen k with
    | true =>
      rw [operate_of_isOpen op ho]
      exact getElem?_post (op.enrol site) ⟨none, k, op.event site⟩ (by cases op <;> exact hj)
    | false =>
      rw [operate_of_not_isOpen op ho, mailFor_singleton]
      have haway : (op.turnedAway site).hosts[j]? = some h := by cases op <;> exact hj
      refine haway.trans (congrArg some ?_)
      split
      · rename_i hkj
        simp only at hkj
        subst hkj
        rw [isOpen_eq hj] at ho
        exact (Host.postAll_of_not_isOpen ho _).symm
      · rfl
  | kill k => exact getElem?_modify_hosts k Host.kill hj
  | register k =>
    show (site.act (.register k)).hosts[j]? = some h
    simp only [act]
    split <;> exact hj
  | disconnect id => exact hj
  | turn i =>
    simp only [postings, own]
    have hturns := turns_act site i
    generalize site.act (.turn i) = site' at hturns ⊢
    cases hturns with
    | idle hi =>
      simp only [hi, reduceCtorEq, if_false]
      exact hj
    | ring t hi hdue =>
      simp only [hi, hdue, if_true, Option.some.injEq, reduceCtorEq, if_false]
      exact getElem?_post _ ⟨none, t.host, .backoffElapsed⟩ hj
    | set t hi hdue =>
      simp only [hi, hdue, if_false, Option.some.injEq, reduceCtorEq]
      exact hj
    | nobody k hi hk =>
      have hkj : k ≠ j := by
        rintro rfl
        rw [hj] at hk
        cases hk
      simp only [hi, hk, hkj, Option.some.injEq, Task.host.injEq, if_false]
      exact hj
    | serve k served hi hk hserves =>
      rw [hserves.getElem? hk hj]
      simp only [hi, hk, Option.some.injEq, Task.host.injEq]
      rfl
  | expire i =>
    simp only [act, postings, own]
    cases hi : site.timers[i]? with
    | none => exact hj
    | some t => exact getElem?_post _ ⟨none, t.host, .backoffElapsed⟩ hj
  | wait now => exact hj
  | release k =>
    show (if site.isOpen k then site else site.remove k).hosts[j]? =
      some (if k = j ∧ h.isOpen = false then { h with state := .gone } else h)
    cases hk : site.hosts[k]? with
    | none =>
      have hkj : k ≠ j := by
        rintro rfl
        rw [hj] at hk
        cases hk
      simp [isOpen, remove, hk, hkj, hj]
    | some stopped =>
      by_cases hkj : k = j
      · subst hkj
        obtain rfl : stopped = h := Option.some_inj.mp (hk.symm.trans hj)
        cases ho : stopped.isOpen with
        | true => simp [isOpen, hk, ho]
        | false =>
          simp only [isOpen, hk, Option.any, ho, Bool.false_eq_true, if_false, and_self, if_true]
          rw [remove_eq hk]
          exact (getElem?_modify_hosts k _ hj).trans (by rw [if_pos rfl])
      · simp only [hkj, false_and, if_false]
        split
        · exact hj
        · rw [remove_eq hk]
          exact (getElem?_modify_hosts k _ hj).trans (by rw [if_neg hkj])

omit [RandomSource ρ] [StateMachine σ] in
theorem length_post (site : Site ρ σ) (k : Nat) (e : Event) :
    (site.post k e).2.hosts.length = site.hosts.length :=
  (absorbs_post site ⟨none, k, e⟩).length_hosts

omit [RandomSource ρ] [StateMachine σ] in
theorem length_remove (site : Site ρ σ) (k : Nat) :
    (site.remove k).hosts.length = site.hosts.length := by
  cases hk : site.hosts[k]? with
  | none => simp [remove, hk]
  | some h =>
    rw [remove_eq hk]
    exact List.length_modify ..

theorem Serves.length_hosts (h : Serves site k h site') :
    site'.hosts.length = site.hosts.length := by
  cases h with
  | input replica replica' e inbox input now effects hs he hstep hserve habsorbs =>
    exact habsorbs.length_hosts.trans (List.length_modify ..)
  | fault => exact length_remove ..
  | status => exact List.length_modify ..
  | shutdown =>
    rw [discard_eq]
    exact List.length_modify ..
  | bury => exact length_remove ..
  | rest => rfl

/-- Only a start brings a new host, with the next number. -/
theorem getElem?_act_of_none {a : Act ρ σ} {j : Nat} (hj : site.hosts[j]? = none)
    (hnew : (site.act a).hosts[j]? = some h) :
    j = site.hosts.length ∧ ∃ id members config source machine,
      a = .start id members config source machine ∧
        Host.start id members config source machine = .ok h := by
  have hlength : (site.act a).hosts.length ≠ site.hosts.length := by
    intro heq
    have hlt := (List.getElem?_eq_some_iff.mp hnew).1
    have hle := List.getElem?_eq_none_iff.mp hj
    omega
  cases a with
  | start id members config source machine =>
    cases hstart : Host.start id members config source machine with
    | error e =>
      simp only [act, hstart] at hlength
      exact absurd rfl hlength
    | ok started =>
      simp only [act, hstart] at hnew
      have hlt := (List.getElem?_eq_some_iff.mp hnew).1
      have hle := List.getElem?_eq_none_iff.mp hj
      rw [List.length_append, List.length_singleton] at hlt
      obtain rfl : j = site.hosts.length := by omega
      rw [List.getElem?_concat_length, Option.some_inj] at hnew
      exact ⟨rfl, id, members, config, source, machine, rfl, hnew ▸ hstart⟩
  | operate k op =>
    refine absurd ?_ hlength
    show (site.operate k op).2.hosts.length = _
    cases ho : site.isOpen k with
    | true =>
      rw [operate_of_isOpen op ho]
      exact (length_post ..).trans (by cases op <;> rfl)
    | false =>
      rw [operate_of_not_isOpen op ho]
      cases op <;> rfl
  | kill k => exact absurd (List.length_modify ..) hlength
  | register k =>
    refine absurd ?_ hlength
    simp only [act]
    split <;> rfl
  | disconnect id => exact absurd rfl hlength
  | turn i =>
    refine absurd ?_ hlength
    have hturns := turns_act site i
    generalize site.act (.turn i) = site' at hturns ⊢
    cases hturns with
    | idle hi => rfl
    | ring t hi hdue => exact length_post ..
    | set t hi hdue => rfl
    | nobody k hi hk => rfl
    | serve k served hi hk hserves => exact hserves.length_hosts
  | expire i =>
    refine absurd ?_ hlength
    simp only [act]
    split
    · exact length_post ..
    · rfl
  | wait now => exact absurd rfl hlength
  | release k =>
    refine absurd ?_ hlength
    simp only [act]
    split
    · rfl
    · exact length_remove ..

end Site

end PaxosLog
