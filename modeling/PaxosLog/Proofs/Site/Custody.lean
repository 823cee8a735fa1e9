import PaxosLog.Proofs.Site.Course

/-!
# Who holds what clients wait for

A submission and a question come into the inbox of a host as events, and somebody waits for what
comes of each (`Site.Pends`). As long as this is so, the host holds it (`Host.Holds`): a question is
in its inbox, and a request in its inbox, in the queue of its replica or in an entry of its log.

* `Site.Later`: whoever has stopped waiting never waits again, and nobody goes away.
* `conserved_of_step`: a step of a replica keeps its requests, hands them back or answers them.
* **`Site.settled_remove`**: with a host that is gone, everything that it held is settled.
* **`Site.custody_act`**: every act keeps what is waited for with its host.
-/

namespace PaxosLog

/-! ## Receivers and questions -/

/-- Whatever is in `l` became something in `l'`, at the same place. -/
def Keeps {α : Type} (R : α → α → Prop) (l l' : List α) : Prop :=
  ∀ (i : Nat) (a : α), l[i]? = some a → ∃ a', l'[i]? = some a' ∧ R a a'

namespace Keeps

variable {α : Type} {R : α → α → Prop} {l l₁ l' : List α}

theorem refl (hR : ∀ a, R a a) : Keeps R l l := fun _ a ha => ⟨a, ha, hR a⟩

theorem trans (hR : ∀ {a b c}, R a b → R b c → R a c) (h : Keeps R l l₁) (h' : Keeps R l₁ l') :
    Keeps R l l' := by
  intro i a ha
  obtain ⟨b, hb, hab⟩ := h i a ha
  obtain ⟨c, hc, hbc⟩ := h' i b hb
  exact ⟨c, hc, hR hab hbc⟩

theorem append (hR : ∀ a, R a a) (more : List α) : Keeps R l (l ++ more) := by
  intro i a ha
  refine ⟨a, ?_, hR a⟩
  rw [List.getElem?_append_left (List.getElem?_eq_some_iff.mp ha).1]
  exact ha

theorem modify (hR : ∀ a, R a a) {f : α → α} (hf : ∀ a, R a (f a)) (k : Nat) :
    Keeps R l (l.modify k f) := by
  intro i a ha
  rw [List.getElem?_modify, ha]
  refine ⟨_, rfl, ?_⟩
  split
  · exact hf a
  · exact hR a

theorem set (hR : ∀ a, R a a) {b : α} (hb : ∀ a, R a b) (k : Nat) : Keeps R l (l.set k b) := by
  intro i a ha
  by_cases hk : k = i
  · subst hk
    exact ⟨b, List.getElem?_set_self (List.getElem?_eq_some_iff.mp ha).1, hb a⟩
  · exact ⟨a, (List.getElem?_set_ne hk).trans ha, hR a⟩

end Keeps

/-- Nobody starts to wait, and nobody goes away. -/
def Receiver.Becomes (r r' : Receiver) : Prop :=
  (r' = .waiting → r = .waiting) ∧ (r' = .gone → r = .gone)

/-- Nobody starts to wait. -/
def Query.Becomes (s s' : Query) : Prop := s' = .waiting → s = .waiting

namespace Receiver

theorem Becomes.refl (r : Receiver) : r.Becomes r := ⟨id, id⟩

theorem Becomes.trans {r r₁ r' : Receiver} (h : r.Becomes r₁) (h' : r₁.Becomes r') :
    r.Becomes r' := ⟨h.1 ∘ h'.1, h.2 ∘ h'.2⟩

theorem becomes_lose (r : Receiver) : r.Becomes r.lose := by
  cases r <;> exact ⟨by simp [lose], by simp [lose]⟩

theorem becomes_answer (reply : CommandReply) (r : Receiver) : r.Becomes (r.answer reply) := by
  cases r <;> exact ⟨by simp [answer], by simp [answer]⟩

end Receiver

namespace Clients

/-- The receiver of a request waits. -/
def Waits (c : Clients) (q : ClientRequest) : Prop := c.receivers[q.ticket]? = some .waiting

variable {c : Clients} {q : ClientRequest}

theorem keeps_lose (c : Clients) (requests : List ClientRequest) :
    Keeps Receiver.Becomes c.receivers (c.lose requests).receivers := by
  induction requests generalizing c with
  | nil => exact .refl .refl
  | cons q requests ih =>
    exact .trans .trans (.modify .refl Receiver.becomes_lose q.ticket) (ih _)

theorem keeps_answers (c : Clients) (replies : List (ClientRequest × CommandReply)) :
    Keeps Receiver.Becomes c.receivers
      (replies.foldl (fun c a => c.answer a.1 a.2) c).receivers := by
  induction replies generalizing c with
  | nil => exact .refl .refl
  | cons a replies ih =>
    exact .trans .trans (.modify .refl (Receiver.becomes_answer a.2) a.1.ticket) (ih _)

/-- Who does not wait any more will not wait. -/
theorem not_waits_of_keeps {c' : Clients} (h : Keeps Receiver.Becomes c.receivers c'.receivers)
    {r : Receiver} (hr : c.receivers[q.ticket]? = some r) (hne : r ≠ .waiting) : ¬ c'.Waits q := by
  intro hwaits
  obtain ⟨r', hr', hbecomes⟩ := h _ r hr
  rw [Waits, hr', Option.some_inj] at hwaits
  exact hne (hbecomes.1 hwaits)

theorem waits_of_keeps {c' : Clients} (h : Keeps Receiver.Becomes c.receivers c'.receivers)
    {r : Receiver} (hr : c.receivers[q.ticket]? = some r) (hwaits : c'.Waits q) : c.Waits q := by
  by_contra hne
  exact not_waits_of_keeps h hr (fun heq => hne (hr.trans (congrArg some heq))) hwaits

/-- A request that is dropped is settled. -/
theorem not_waits_lose {requests : List ClientRequest} {r : Receiver}
    (hr : c.receivers[q.ticket]? = some r) (hq : q ∈ requests) : ¬ (c.lose requests).Waits q := by
  induction requests generalizing c r with
  | nil => cases hq
  | cons first requests ih =>
    obtain ⟨r', hr', hbecomes⟩ :=
      (Keeps.modify .refl Receiver.becomes_lose first.ticket : Keeps _ c.receivers _) _ r hr
    rcases List.mem_cons.mp hq with rfl | hq
    · refine not_waits_of_keeps (keeps_lose ⟨_⟩ requests) hr' ?_
      rw [List.getElem?_modify, hr] at hr'
      rw [← Option.some_inj.mp hr']
      cases r <;> simp [Receiver.lose]
    · exact ih hr' hq

/-- A request that is answered is settled. -/
theorem not_waits_answers {replies : List (ClientRequest × CommandReply)} {r : Receiver}
    (hr : c.receivers[q.ticket]? = some r) (hq : q ∈ replies.map Prod.fst) :
    ¬ (replies.foldl (fun c a => c.answer a.1 a.2) c).Waits q := by
  induction replies generalizing c r with
  | nil => cases hq
  | cons first replies ih =>
    obtain ⟨r', hr', hbecomes⟩ := (Keeps.modify .refl (Receiver.becomes_answer first.2)
      first.1.ticket : Keeps _ c.receivers _) _ r hr
    rcases List.mem_cons.mp hq with rfl | hq
    · refine not_waits_of_keeps (keeps_answers ⟨_⟩ replies) hr' ?_
      rw [List.getElem?_modify, hr] at hr'
      rw [← Option.some_inj.mp hr']
      cases r <;> simp [Receiver.answer]
    · exact ih hr' hq

end Clients

variable {ρ σ : Type}

namespace Site

theorem keeps_refused (events : List Event) (queries : List Query) :
    Keeps Query.Becomes queries (refused events queries) := by
  have hrefl : ∀ s : Query, s.Becomes s := fun _ => id
  induction events generalizing queries with
  | nil => exact .refl hrefl
  | cons e events ih =>
    refine .trans (fun h h' => h ∘ h') ?_ (ih _)
    cases e with
    | status i =>
      exact .set hrefl (fun _ h => by cases h) i
    | _ => exact .refl hrefl

/-- A question that is refused is settled. -/
theorem not_waiting_refused {events : List Event} {queries : List Query} {i : Nat}
    {s : Query} (hs : queries[i]? = some s) (hi : .status i ∈ events) :
    (refused events queries)[i]? ≠ some .waiting := by
  induction events generalizing queries s with
  | nil => cases hi
  | cons e events ih =>
    rcases List.mem_cons.mp hi with rfl | hi
    · intro hwaits
      have hset : (queries.set i .refused)[i]? = some .refused :=
        List.getElem?_set_self (List.getElem?_eq_some_iff.mp hs).1
      obtain ⟨s', hs', hbecomes⟩ := keeps_refused events _ i _ hset
      cases hbecomes (Option.some_inj.mp (hs'.symm.trans hwaits))
    · obtain ⟨s', hs', -⟩ := keeps_refused [e] queries i s hs
      exact ih hs' hi

/-- There is somebody who is told what comes of the event, if anything. -/
def Enrolled (site : Site ρ σ) : Event → Prop
  | .request q => ∃ r, site.clients.receivers[q.ticket]? = some r ∧ r ≠ .gone
  | .status i => ∃ s, site.queries[i]? = some s
  | _ => True

/-- Somebody waits for what comes of the event. -/
def Pends (site : Site ρ σ) : Event → Prop
  | .request q => site.clients.Waits q
  | .status i => site.queries[i]? = some .waiting
  | _ => False

/-- Nobody started to wait between `site` and `site'`, and nobody went away. -/
structure Later (site site' : Site ρ σ) : Prop where
  receivers : Keeps Receiver.Becomes site.clients.receivers site'.clients.receivers
  queries : Keeps Query.Becomes site.queries site'.queries

variable {site site₁ site' : Site ρ σ} {k : Nat} {h : Host ρ σ} {e : Event}

namespace Later

theorem of_same (hclients : site'.clients = site.clients)
    (hqueries : site'.queries = site.queries) : Later site site' :=
  ⟨hclients ▸ .refl .refl, hqueries ▸ .refl fun _ => id⟩

theorem refl (site : Site ρ σ) : Later site site := .of_same rfl rfl

theorem trans (h : Later site site₁) (h' : Later site₁ site') : Later site site' :=
  ⟨.trans .trans h.receivers h'.receivers, .trans (fun h h' => h ∘ h') h.queries h'.queries⟩

/-- Before it, other things may have happened. -/
theorem since (h : Later site₁ site') (hclients : site₁.clients = site.clients)
    (hqueries : site₁.queries = site.queries) : Later site site' :=
  (of_same hclients hqueries).trans h

theorem enrolled (h : Later site site') (he : site.Enrolled e) : site'.Enrolled e := by
  cases e with
  | request q =>
    obtain ⟨r, hr, hne⟩ := he
    obtain ⟨r', hr', hbecomes⟩ := h.receivers _ r hr
    exact ⟨r', hr', fun hgone => hne (hbecomes.2 hgone)⟩
  | status i =>
    obtain ⟨s, hs⟩ := he
    obtain ⟨s', hs', -⟩ := h.queries i s hs
    exact ⟨s', hs'⟩
  | _ => trivial

theorem pends (h : Later site site') (he : site.Enrolled e) (hpends : site'.Pends e) :
    site.Pends e := by
  cases e with
  | request q =>
    obtain ⟨r, hr, -⟩ := he
    exact Clients.waits_of_keeps h.receivers hr hpends
  | status i =>
    obtain ⟨s, hs⟩ := he
    obtain ⟨s', hs', hbecomes⟩ := h.queries i s hs
    rw [Pends, hs', Option.some_inj] at hpends
    rw [Pends, hs, hbecomes hpends]
  | _ => exact hpends

end Later

theorem Absorbs.later {mail : List Posting} {alarms : List Timer}
    {replies : List (ClientRequest × CommandReply)} (h : Absorbs site site' mail alarms replies) :
    Later site site' :=
  ⟨h.clients ▸ Clients.keeps_answers _ _, h.queries ▸ .refl fun _ => id⟩

theorem later_post (site : Site ρ σ) (k : Nat) (e : Event) : Later site (site.post k e).2 :=
  (absorbs_post site ⟨none, k, e⟩).later

theorem later_discard (site : Site ρ σ) (events : List Event) :
    Later site (site.discard events) := by
  rw [discard_eq]
  exact ⟨Clients.keeps_lose _ _, keeps_refused _ _⟩

theorem later_remove (site : Site ρ σ) (k : Nat) : Later site (site.remove k) := by
  cases hk : site.hosts[k]? with
  | none =>
    rw [remove, hk]
    exact .refl site
  | some h =>
    rw [remove_eq hk]
    exact ⟨.trans .trans (Clients.keeps_lose _ _) (Clients.keeps_lose _ _), keeps_refused _ _⟩

/-- What is discarded is settled. -/
theorem settled_discard {events : List Event} (he : site.Enrolled e) (hmem : e ∈ events) :
    ¬ (site.discard events).Pends e := by
  rw [discard_eq]
  cases e with
  | request q =>
    obtain ⟨r, hr, -⟩ := he
    exact Clients.not_waits_lose hr (List.mem_flatMap.mpr ⟨_, hmem, List.mem_singleton_self q⟩)
  | status i =>
    obtain ⟨s, hs⟩ := he
    exact not_waiting_refused hs hmem
  | _ => exact id

end Site

/-- The host has what the event asks for: a question waits in its inbox, a request also with its
replica. -/
def Host.Holds (h : Host ρ σ) : Event → Prop
  | .request q => q ∈ h.requests
  | .status i => .status i ∈ h.inbox
  | _ => False

namespace Site

variable {site site' : Site ρ σ} {k : Nat} {h : Host ρ σ} {e : Event}

/-- **With a host that is gone, everything that it held is settled.** -/
theorem settled_remove (hk : site.hosts[k]? = some h) (he : site.Enrolled e) (hh : h.Holds e) :
    ¬ (site.remove k).Pends e := by
  rw [remove_eq hk]
  cases e with
  | request q =>
    obtain ⟨r, hr, -⟩ := he
    have hlost : ¬ (site.clients.lose h.requests).Waits q := Clients.not_waits_lose hr hh
    obtain ⟨r', hr', -⟩ := Clients.keeps_lose site.clients h.requests _ r hr
    exact Clients.not_waits_of_keeps (Clients.keeps_lose _ _) hr'
      fun heq => hlost (hr'.trans (congrArg some heq))
  | status i =>
    obtain ⟨s, hs⟩ := he
    exact not_waiting_refused hs hh
  | _ => exact id

variable [RandomSource ρ] [StateMachine σ]

theorem Serves.later (hserves : Serves site k h site') : Later site site' := by
  cases hserves with
  | input replica replica' e inbox input now effects hs he hstep hserve habsorbs =>
    exact habsorbs.later.since rfl rfl
  | fault => exact later_remove ..
  | status replica query inbox hs =>
    exact ⟨.refl .refl, .set (fun _ => id) (fun _ h => by cases h) _⟩
  | shutdown replica inbox hs => exact (later_discard site inbox).trans (.of_same rfl rfl)
  | bury => exact (later_remove ..).since rfl rfl
  | rest => exact .of_same rfl rfl

/-- **Every act.** -/
theorem later_act (site : Site ρ σ) (a : Act ρ σ) : Later site (site.act a) := by
  cases a with
  | start id members config source machine =>
    simp only [act]
    split <;> exact .of_same rfl rfl
  | operate k op =>
    show Later site (site.operate k op).2
    have hreceivers : ∀ r, Keeps Receiver.Becomes site.clients.receivers
        (site.clients.receivers ++ [r]) := fun r => .append .refl _
    cases ho : site.isOpen k with
    | true =>
      rw [operate_of_isOpen op ho]
      refine .trans ?_ (later_post ..)
      cases op with
      | submit command => exact ⟨hreceivers _, .refl fun _ => id⟩
      | status => exact ⟨.refl .refl, .append (fun _ => id) _⟩
      | deliver | shutdown => exact .refl site
    | false =>
      rw [operate_of_not_isOpen op ho]
      cases op with
      | submit command => exact ⟨hreceivers _, .refl fun _ => id⟩
      | status | deliver | shutdown => exact .refl site
  | kill k => exact .of_same rfl rfl
  | register k =>
    simp only [act]
    split <;> exact .of_same rfl rfl
  | disconnect id => exact .of_same rfl rfl
  | turn i =>
    have hturns := turns_act site i
    generalize site.act (.turn i) = site' at hturns ⊢
    cases hturns with
    | idle hi => exact .refl site
    | ring t hi hdue => exact (later_post ..).since rfl rfl
    | set t hi hdue => exact .of_same rfl rfl
    | nobody k hi hk => exact .of_same rfl rfl
    | serve k h hi hk hserves => exact hserves.later.since rfl rfl
  | expire i =>
    simp only [act]
    split
    · exact (later_post ..).since rfl rfl
    · exact .refl site
  | wait now => exact .of_same rfl rfl
  | release k =>
    simp only [act]
    split
    · exact .refl site
    · exact later_remove ..

end Site

section Steps

variable [RandomSource ρ] [StateMachine σ]

/-- **A step keeps account** of the requests of a replica. -/
theorem conserved_of_step {id : ReplicaId} {n : Nat} {config : Config} {source : ρ} {machine : σ}
    {fresh r r' : Replica ρ σ} {inputs : List Input} {effects out : List Effect} {now : Duration}
    {input : Input} (hstart : Replica.start id n config source machine = .ok fresh)
    (hrun : fresh.Run inputs r effects) (hs : r.step now input = .ok (r', out))
    (q : ClientRequest) :
    r.requests.count q + input.requests.count q =
      r'.requests.count q + (retried out).count q + (answered out).count q := by
  have hbefore := Accounted.of_run hstart hrun q
  have hafter := Accounted.of_run hstart (hrun.step now input hs) q
  simp only [List.flatMap_append, List.flatMap_singleton, List.count_append, retried_append,
    answered_append, List.count_nil, Replica.requests] at hbefore hafter ⊢
  omega

namespace Host

variable {h : Host ρ σ} {e : Event}

omit [RandomSource ρ] [StateMachine σ] in
theorem requests_postAll (ho : h.isOpen = true) (events : List Event) :
    (h.postAll events).requests = h.requests ++ events.flatMap Event.requests := by
  cases hs : h.state with
  | running replica inbox =>
    rw [postAll_running hs]
    simp [requests, hs]
  | killed replica inbox =>
    rw [postAll_killed hs]
    simp [requests, hs]
  | returned | gone => simp [isOpen, hs] at ho

omit [RandomSource ρ] [StateMachine σ] in
/-- What a host has, it keeps when events come in. -/
theorem Holds.postAll (hh : h.Holds e) (events : List Event) : (h.postAll events).Holds e := by
  cases ho : h.isOpen with
  | true =>
    cases e with
    | request q =>
      rw [Holds, requests_postAll ho]
      exact List.mem_append_left _ hh
    | status i =>
      rw [Holds, inbox_postAll ho]
      exact List.mem_append_left _ hh
    | _ => exact hh
  | false => rwa [postAll_of_not_isOpen ho]

omit [RandomSource ρ] [StateMachine σ] in
/-- A killed host has what it had. -/
theorem Holds.kill (hh : h.Holds e) : h.kill.Holds e := by
  unfold Host.kill
  cases hs : h.state with
  | running replica inbox =>
    cases e with
    | request | status => simpa [Holds, requests, Host.inbox, hs] using hh
    | _ => exact hh
  | killed | returned | gone => exact hh

omit [RandomSource ρ] [StateMachine σ] in
/-- What somebody waits for is with the host as soon as it is in its inbox. -/
theorem holds_of_mem_inbox {site : Site ρ σ} (he : e ∈ h.inbox) (hpends : site.Pends e) :
    h.Holds e := by
  cases e with
  | request q =>
    have hmem : q ∈ h.inbox.flatMap Event.requests :=
      List.mem_flatMap.mpr ⟨_, he, List.mem_singleton_self q⟩
    cases hs : h.state with
    | running | killed =>
      simp only [Host.inbox, hs] at hmem
      simp only [Holds, requests, hs]
      exact List.mem_append_right _ hmem
    | returned | gone => simp [Host.inbox, hs] at he
  | status i => exact he
  | _ => exact hpends.elim

end Host

omit [RandomSource ρ] [StateMachine σ] in
theorem Event.requests_of_input? {e : Event} {input : Input} (he : e.input? = some input) :
    e.requests = input.requests := by
  cases e <;> cases he <;> rfl

/-- What a replica hands back had come in. -/
theorem Served.mem_of_retried {id : ReplicaId} {n : Nat} {config : Config} {source : ρ}
    {machine : σ} {fresh : Replica ρ σ} {came handled : List Event} {effects : List Effect}
    {h : Host ρ σ} {now : Nat} {q : ClientRequest}
    (hserved : Served fresh came handled effects h.state)
    (hstart : Replica.start id n config source machine = .ok fresh)
    (hq : q ∈ retried (h.serve now).2) : .request q ∈ came := by
  have hturned := Host.turned_serve now h
  generalize h.handles? = e, (h.serve now).1 = h', (h.serve now).2 = out at hturned hq
  cases hturned with
  | input replica replica' e inbox input time hs he htime hstep =>
    rw [hs] at hserved
    cases hserved with
    | running _ _ hcame hnone hrun =>
      have hcount := Accounted.of_run hstart (hrun.step time input hstep) q
      have hpos : 0 < (retried out).count q := List.count_pos_iff.mpr hq
      rw [retried_append, List.count_append] at hcount
      obtain ⟨taken, htaken, hrequest⟩ := List.mem_flatMap.mp (List.count_pos_iff.mp
        (show 0 < List.count q _ by rw [hcount]; omega))
      have hmem : taken ∈ (handled ++ [e]).filterMap Event.input? := by
        rw [List.filterMap_append]
        simpa [he] using htaken
      obtain ⟨event, hevent, hinput⟩ := List.mem_filterMap.mp hmem
      rw [← Event.requests_of_input? hinput] at hrequest
      cases event with
      | request q' =>
        obtain rfl := List.mem_singleton.mp hrequest
        rw [hcame, List.append_cons]
        exact List.mem_append_left _ hevent
      | _ => cases hrequest
  | _ => cases hq

namespace Site

variable {site site' : Site ρ σ} {k : Nat} {h : Host ρ σ} {e : Event}

omit [RandomSource ρ] [StateMachine σ] in
/-- Requests that are handed back come into the inbox of the host. -/
theorem mem_requests_mailFor {q : ClientRequest} {effects : List Effect}
    (hq : q ∈ retried effects) :
    q ∈ (mailFor k (effects.flatMap (site.mail k h))).flatMap Event.requests := by
  obtain ⟨x, hx, hretried⟩ := List.mem_filterMap.mp hq
  cases x with
  | retry request =>
    cases hretried
    refine List.mem_flatMap.mpr ⟨.request q, List.mem_map.mpr ⟨⟨none, k, .request q⟩, ?_, rfl⟩,
      List.mem_singleton_self q⟩
    exact List.mem_filter.mpr ⟨List.mem_flatMap.mpr ⟨_, hx, List.mem_singleton_self _⟩, by simp⟩
  | _ => cases hretried

/-- **A turn of a host.** -/
theorem Serves.holds {id : ReplicaId} {n : Nat} {config : Config} {source : ρ} {machine : σ}
    {fresh : Replica ρ σ} {came handled : List Event} {effects : List Effect}
    (hserves : Serves site k h site') (hk : site.hosts[k]? = some h)
    (hstart : Replica.start id n config source machine = .ok fresh)
    (hserved : Served fresh came handled effects h.state) (he : site.Enrolled e)
    (hh : h.Holds e) (hpends : site'.Pends e) :
    ((h.serve site.now).1.postAll
      (mailFor k ((h.serve site.now).2.flatMap (site.mail k h)))).Holds e := by
  cases hserves with
  | input replica replica' e₀ inbox input now out hs he₀ hstep hserve habsorbs =>
    rw [hserve]
    cases e with
    | request q =>
      rw [Host.Holds, Host.requests_postAll rfl]
      show q ∈ replica'.requests ++ inbox.flatMap Event.requests ++ _
      rw [Host.Holds, Host.requests, hs] at hh
      simp only [List.flatMap_cons, List.mem_append] at hh
      rcases or_assoc.mpr hh with hq | hq
      · -- the replica had the request or gets it: it keeps it, hands it back or answers it
        rw [hs] at hserved
        cases hserved with
        | running _ _ hcame hnone hrun =>
          have hcount := conserved_of_step hstart hrun hstep q
          rw [← Event.requests_of_input? he₀] at hcount
          have hpos : 0 < replica.requests.count q + e₀.requests.count q := by
            rcases hq with hq | hq
            · exact Nat.add_pos_left (List.count_pos_iff.mpr hq) _
            · exact Nat.add_pos_right _ (List.count_pos_iff.mpr hq)
          have hanswered : q ∉ answered out := by
            obtain ⟨r, hr, -⟩ := he
            intro hq
            rw [Pends, habsorbs.clients] at hpends
            exact Clients.not_waits_answers hr hq hpends
          rw [List.count_eq_zero.mpr hanswered] at hcount
          rcases Nat.eq_zero_or_pos (replica'.requests.count q) with hzero | hkept
          · have hback : q ∈ retried out := List.count_pos_iff.mp (by omega)
            exact List.mem_append_right _ (mem_requests_mailFor hback)
          · exact List.mem_append_left _ (List.mem_append_left _ (List.count_pos_iff.mp hkept))
      · exact List.mem_append_left _ (List.mem_append_right _ hq)
    | status i =>
      rw [Host.Holds, Host.inbox_postAll rfl]
      simp only [Host.Holds, Host.inbox, hs] at hh ⊢
      rcases List.mem_cons.mp hh with rfl | hi
      · cases he₀
      · exact List.mem_append_left _ hi
    | _ => exact hh.elim
  | fault replica e₀ inbox hs hserve => exact absurd hpends (settled_remove hk he hh)
  | status replica query inbox hs =>
    have hserve : h.serve site.now = ({ h with state := .running replica inbox }, []) := by
      simp [Host.serve, hs, Event.input?]
    rw [hserve]
    cases e with
    | request q =>
      rw [Host.Holds, Host.requests, hs] at hh
      exact hh
    | status i =>
      simp only [Host.Holds, Host.inbox, hs] at hh
      rcases List.mem_cons.mp hh with heq | hi
      · cases heq
        obtain ⟨s, hs⟩ := he
        have hset := List.getElem?_set_self (a := Query.answered replica.status)
          (List.getElem?_eq_some_iff.mp hs).1
        cases Option.some_inj.mp (hset.symm.trans hpends)
      · exact hi
    | _ => exact hh
  | shutdown replica inbox hs =>
    have hserve : h.serve site.now = ({ h with state := .returned replica }, []) := by
      simp [Host.serve, hs, Event.input?]
    rw [hserve]
    -- the events behind the shutdown are discarded
    have hrest : e ∉ inbox := fun hmem => settled_discard he hmem hpends
    cases e with
    | request q =>
      simp only [Host.Holds, Host.requests, hs] at hh
      rcases List.mem_append.mp hh with hq | hq
      · exact hq
      · obtain ⟨e₀, he₀, hq⟩ := List.mem_flatMap.mp hq
        cases e₀ <;> simp [Event.requests] at hq
        subst hq
        exact absurd (by simpa using he₀) hrest
    | status i =>
      simp only [Host.Holds, Host.inbox, hs] at hh
      exact absurd (by simpa using hh) hrest
    | _ => exact hh
  | bury replica inbox hs =>
    exact absurd hpends (settled_remove (show site.hosts[k]? = some h from hk) he hh)
  | rest hidle hserve =>
    rw [hserve]
    exact hh

/-- What is waited for stays with its host. -/
theorem holds_act {id : ReplicaId} {n : Nat} {config : Config} {source : ρ} {machine : σ}
    {fresh : Replica ρ σ} {came handled : List Event} {effects : List Effect} {j : Nat}
    (hj : site.hosts[j]? = some h) (hstart : Replica.start id n config source machine = .ok fresh)
    (hserved : Served fresh came handled effects h.state) (he : site.Enrolled e) (hh : h.Holds e)
    {a : Act ρ σ} (hpends : (site.act a).Pends e) :
    ((site.own a j h).postAll ((site.arrivals a j).map Posting.event)).Holds e := by
  cases a with
  | kill k =>
    simp only [own]
    split
    · exact hh.kill.postAll _
    · exact hh.postAll _
  | release k =>
    simp only [own]
    split
    · rename_i hstopped
      obtain ⟨rfl, hc⟩ := hstopped
      have hact : site.act (.release k) = site.remove k := by
        simp only [act, isOpen, hj, Option.any_some, hc, Bool.false_eq_true, if_false]
      rw [hact] at hpends
      exact absurd hpends (settled_remove hj he hh)
    · exact hh.postAll _
  | turn i =>
    by_cases hi : site.ready[i]? = some (.host j)
    · rw [postAll_arrivals hj isOpen_own]
      simp only [own, postings, hi, hj, if_true]
      have hturns := turns_act site i
      generalize site.act (.turn i) = site' at hturns hpends
      cases hturns with
      | idle hnone => rw [hnone] at hi; cases hi
      | ring t htimer | set t htimer => rw [htimer] at hi; cases hi
      | nobody k hk hnone =>
        rw [hk] at hi
        cases hi
        rw [hnone] at hj
        cases hj
      | serve k h₀ hk hh₀ hserves =>
        rw [hk] at hi
        cases hi
        rw [hh₀] at hj
        cases hj
        exact hserves.holds hh₀ hstart hserved he hh hpends
    · simp only [own, hi, if_false]
      exact hh.postAll _
  | _ => exact hh.postAll _

/-- Events come in only for hosts that go on to take them. -/
theorem isOpen_own_of_mem {j : Nat} {a : Act ρ σ} {p : Posting} (hj : site.hosts[j]? = some h)
    (hp : p ∈ site.arrivals a j) : (site.own a j h).isOpen = true := by
  have ho : h.isOpen = true := by
    by_contra hc
    rw [(quiet_of_not_isOpen ((isOpen_eq hj).trans (by simpa using hc)) a).1] at hp
    cases hp
  cases a with
  | kill k =>
    simp only [own]
    split
    · unfold Host.isOpen at ho
      unfold Host.kill Host.isOpen
      cases hs : h.state <;> simp_all
    · exact ho
  | release k => simp [own, ho]
  | turn i =>
    simp only [own]
    split
    · rename_i hi
      have hmem : p ∈ site.postings (.turn i) := by
        unfold arrivals at hp
        split at hp
        · exact (List.mem_filter.mp hp).1
        · cases hp
      simp only [postings, hi, hj] at hmem
      have hturned := Host.turned_serve site.now h
      generalize h.handles? = e, (h.serve site.now).1 = h', (h.serve site.now).2 = out
        at hturned hmem
      -- only a replica that takes an input puts anything into inboxes
      cases hturned with
      | input => rfl
      | fault | status | shutdown | bury | rest => cases hmem
    · exact ho
  | _ => exact ho

/-- Whoever submits or asks is there to be told. -/
theorem enrolled_of_mem {id : ReplicaId} {n : Nat} {config : Config} {source : ρ} {machine : σ}
    {fresh : Replica ρ σ} {came handled : List Event} {effects : List Effect} {j : Nat}
    {a : Act ρ σ} {p : Posting} (hj : site.hosts[j]? = some h)
    (hstart : Replica.start id n config source machine = .ok fresh)
    (hserved : Served fresh came handled effects h.state) (he : ∀ e ∈ came, site.Enrolled e)
    (hp : p ∈ site.arrivals a j) : (site.act a).Enrolled p.event := by
  unfold arrivals at hp
  split at hp
  · rename_i ho
    obtain ⟨hmem, hhost⟩ := List.mem_filter.mp hp
    have hhost : p.host = j := of_decide_eq_true hhost
    cases a with
    | operate k op =>
      obtain rfl := List.mem_singleton.mp hmem
      obtain rfl : k = j := hhost
      show (site.operate k op).2.Enrolled (op.event site)
      rw [operate_of_isOpen op ho]
      refine (later_post ..).enrolled ?_
      cases op with
      | submit command => exact ⟨.waiting, List.getElem?_concat_length, by simp⟩
      | status => exact ⟨.waiting, List.getElem?_concat_length⟩
      | deliver | shutdown => trivial
    | turn i =>
      simp only [postings] at hmem
      cases hi : site.ready[i]? with
      | none => simp [hi] at hmem
      | some task =>
        cases task with
        | timer t =>
          simp only [hi] at hmem
          split at hmem
          · rw [List.mem_singleton.mp hmem]
            trivial
          · cases hmem
        | host k =>
          cases hk : site.hosts[k]? with
          | none => simp [hi, hk] at hmem
          | some g =>
            simp only [hi, hk] at hmem
            obtain ⟨x, hx, hmem⟩ := List.mem_flatMap.mp hmem
            rcases mem_mail hmem with ⟨q, rfl, rfl⟩ | ⟨letter, -, -, -, hmessage⟩
            · -- a request that is handed back had come in before
              obtain rfl : k = j := hhost
              obtain rfl : g = h := Option.some_inj.mp (hk.symm.trans hj)
              have hback : q ∈ retried (g.serve site.now).2 := List.mem_filterMap.mpr ⟨_, hx, rfl⟩
              exact (later_act site _).enrolled (he _ (hserved.mem_of_retried hstart hback))
            · rw [hmessage]
              trivial
    | expire i =>
      obtain ⟨t, -, rfl⟩ := List.mem_map.mp hmem
      trivial
    | _ => cases hmem
  · cases hp

/-- Whoever waits for what came of one of the events waits for something that the host has. -/
def Custody (site : Site ρ σ) (came : List Event) (h : Host ρ σ) : Prop :=
  ∀ e ∈ came, site.Enrolled e ∧ (site.Pends e → h.Holds e)

/-- **Every act keeps this.** -/
theorem custody_act {id : ReplicaId} {n : Nat} {config : Config} {source : ρ} {machine : σ}
    {fresh : Replica ρ σ} {came handled : List Event} {effects : List Effect} {j : Nat}
    (hj : site.hosts[j]? = some h) (hstart : Replica.start id n config source machine = .ok fresh)
    (hserved : Served fresh came handled effects h.state) (hc : site.Custody came h)
    (a : Act ρ σ) :
    (site.act a).Custody (came ++ (site.arrivals a j).map Posting.event)
      ((site.own a j h).postAll ((site.arrivals a j).map Posting.event)) := by
  have hlater := later_act site a
  intro e he
  rcases List.mem_append.mp he with he | he
  · obtain ⟨henrolled, hholds⟩ := hc e he
    exact ⟨hlater.enrolled henrolled, fun hpends =>
      holds_act hj hstart hserved henrolled (hholds (hlater.pends henrolled hpends)) hpends⟩
  · obtain ⟨p, hp, rfl⟩ := List.mem_map.mp he
    refine ⟨enrolled_of_mem hj hstart hserved (fun e he => (hc e he).1) hp, fun hpends => ?_⟩
    refine Host.holds_of_mem_inbox ?_ hpends
    rw [Host.inbox_postAll (isOpen_own_of_mem hj hp)]
    exact List.mem_append_right _ he

/-- **What came in is settled or with the host.** -/
theorem custody_of_acts {as : List (Act ρ σ)} {j : Nat} (hj : (empty.acts as).hosts[j]? = some h) :
    (empty.acts as).Custody ((empty.came as j).map Posting.event) h := by
  induction as using List.reverseRecOn generalizing h with
  | nil => cases hj
  | append_singleton as a ih =>
    rw [acts_concat] at hj ⊢
    rw [came_append, came_singleton, List.map_append]
    cases hbefore : (empty.acts as).hosts[j]? with
    | some g =>
      obtain ⟨members, config, source, machine, fresh, -, -, -, hstart, hserved⟩ :=
        exists_served hbefore
      rw [getElem?_act _ a hbefore, Option.some_inj] at hj
      rw [← hj]
      exact custody_act hbefore hstart hserved (ih hbefore) a
    | none =>
      have hcourse := course_of_acts as j
      rw [hbefore] at hcourse
      rw [hcourse.1, (quiet_of_not_isOpen (isOpen_of_none hbefore) a).1]
      exact fun e he => by cases he

end Site

end Steps

end PaxosLog
