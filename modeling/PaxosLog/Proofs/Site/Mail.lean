import PaxosLog.Proofs.Conservation
import PaxosLog.Proofs.Site.Acts
import PaxosLog.Proofs.Wire

/-!
# What a replica does to the site around it

The effects of a replica bring events to inboxes, start timers and answer clients. A `Posting` is an
event on its way to the inbox of a host; a letter that a host sends is one if its receiver has a
route.

* **`Host.inbox_postAll`**: an inbox that takes events is a queue. One that takes none does not
  change.
* `Absorbs` says what came in, and that nothing else changed; such stretches can be put together.
* **`absorbs_absorbAll`**: all that comes of the effects of a step.
-/

namespace PaxosLog

variable {ρ σ : Type}

/-- What the replica is given for the event, if it is anything for the replica. -/
def Event.input? : Event → Option Input
  | .message m => some (.message m)
  | .request r => some (.request r)
  | .backoffElapsed => some .backoffElapsed
  | _ => none

namespace Host

/-- Events come in one after another. -/
def postAll (h : Host ρ σ) (events : List Event) : Host ρ σ := events.foldl post h

variable {h : Host ρ σ}

theorem postAll_append (events more : List Event) :
    h.postAll (events ++ more) = (h.postAll events).postAll more := List.foldl_append

theorem post_of_not_isOpen (hc : h.isOpen = false) (e : Event) : h.post e = h := by
  unfold isOpen at hc
  unfold post
  split <;> simp_all

theorem postAll_of_not_isOpen (hc : h.isOpen = false) (events : List Event) :
    h.postAll events = h := by
  induction events with
  | nil => rfl
  | cons e events ih =>
    show (h.post e).postAll events = h
    rw [post_of_not_isOpen hc, ih]

theorem postAll_running {replica : Replica ρ σ} {inbox : List Event}
    (hs : h.state = .running replica inbox) (events : List Event) :
    h.postAll events = { h with state := .running replica (inbox ++ events) } := by
  induction events generalizing h inbox with
  | nil => rw [List.append_nil, ← hs]; rfl
  | cons e events ih =>
    have hpost : h.post e = { h with state := .running replica (inbox ++ [e]) } := by
      unfold post
      rw [hs]
    show (h.post e).postAll events = _
    rw [hpost, ih rfl, List.append_assoc]
    rfl

theorem postAll_killed {replica : Replica ρ σ} {inbox : List Event}
    (hs : h.state = .killed replica inbox) (events : List Event) :
    h.postAll events = { h with state := .killed replica (inbox ++ events) } := by
  induction events generalizing h inbox with
  | nil => rw [List.append_nil, ← hs]; rfl
  | cons e events ih =>
    have hpost : h.post e = { h with state := .killed replica (inbox ++ [e]) } := by
      unfold post
      rw [hs]
    show (h.post e).postAll events = _
    rw [hpost, ih rfl, List.append_assoc]
    rfl

@[simp] theorem id_postAll (events : List Event) : (h.postAll events).id = h.id := by
  cases hs : h.state with
  | running replica inbox => rw [postAll_running hs]
  | killed replica inbox => rw [postAll_killed hs]
  | returned | gone => rw [postAll_of_not_isOpen (by simp [isOpen, hs])]

@[simp] theorem members_postAll (events : List Event) : (h.postAll events).members = h.members := by
  cases hs : h.state with
  | running replica inbox => rw [postAll_running hs]
  | killed replica inbox => rw [postAll_killed hs]
  | returned | gone => rw [postAll_of_not_isOpen (by simp [isOpen, hs])]

@[simp] theorem isOpen_postAll (events : List Event) : (h.postAll events).isOpen = h.isOpen := by
  cases hs : h.state with
  | running replica inbox => rw [postAll_running hs]; simp [isOpen, hs]
  | killed replica inbox => rw [postAll_killed hs]; simp [isOpen, hs]
  | returned | gone => rw [postAll_of_not_isOpen (by simp [isOpen, hs])]

/-- **An inbox is a queue.** -/
theorem inbox_postAll (ho : h.isOpen = true) (events : List Event) :
    (h.postAll events).inbox = h.inbox ++ events := by
  cases hs : h.state with
  | running replica inbox => rw [postAll_running hs]; simp [Host.inbox, hs]
  | killed replica inbox => rw [postAll_killed hs]; simp [Host.inbox, hs]
  | returned | gone => simp [isOpen, hs] at ho

/-- The letters that an effect of the replica sends, with their receivers: a broadcast is a letter
to each of the other members. -/
def letters (h : Host ρ σ) : Effect → List (ReplicaId × Message)
  | .broadcast m => h.peers.map (·, m)
  | .send p m => [(p, m)]
  | _ => []

end Host

/-- Something that is to come into the inbox of a host. -/
structure Posting where
  /-- The number of the host that sends it, if it is a message under way between hosts. -/
  sender : Option Nat
  /-- The number of the host that it is for. -/
  host : Nat
  event : Event
deriving DecidableEq

/-- The events for host number `j`, in order. -/
def mailFor (j : Nat) (mail : List Posting) : List Event :=
  (mail.filter (·.host = j)).map Posting.event

@[simp] theorem mailFor_nil (j : Nat) : mailFor j [] = [] := rfl

theorem mailFor_append (j : Nat) (mail more : List Posting) :
    mailFor j (mail ++ more) = mailFor j mail ++ mailFor j more := by
  rw [mailFor, List.filter_append, List.map_append]
  rfl

theorem mailFor_singleton (j : Nat) (p : Posting) :
    mailFor j [p] = if p.host = j then [p.event] else [] := by
  by_cases hj : p.host = j <;> simp [mailFor, hj]

/-- The timer that was started, if the task is one. -/
def Task.timer? : Task → Option Timer
  | .timer t => some t
  | .host _ => none

namespace Site

variable {site site₁ site' : Site ρ σ} {k : Nat} {h : Host ρ σ}

/-! ## Effects of a replica -/

/-- What comes of a letter that host number `k` sends: a message for the host that its receiver has
a route to, if it has one. -/
def address (site : Site ρ σ) (k : Nat) (letter : ReplicaId × Message) : Option Posting :=
  (site.route? letter.1).map fun j => ⟨some k, j, .message letter.2⟩

/-- What an effect of the replica of host number `k` puts into inboxes. -/
def mail (site : Site ρ σ) (k : Nat) (h : Host ρ σ) : Effect → List Posting
  | .retry q => [⟨none, k, .request q⟩]
  | e => (h.letters e).filterMap (site.address k)

/-- Mail is a request that the replica hands back, for the host itself, or a letter. -/
theorem mem_mail {site : Site ρ σ} {k : Nat} {h : Host ρ σ} {e : Effect} {p : Posting}
    (hp : p ∈ site.mail k h e) :
    (∃ q, e = .retry q ∧ p = ⟨none, k, .request q⟩) ∨
      ∃ letter ∈ h.letters e, site.address k letter = some p ∧ p.sender = some k ∧
        p.event = .message letter.2 := by
  by_cases hretry : ∃ q, e = .retry q
  · obtain ⟨q, rfl⟩ := hretry
    exact .inl ⟨q, rfl, List.mem_singleton.mp hp⟩
  · have hletters : site.mail k h e = (h.letters e).filterMap (site.address k) := by
      cases e with
      | retry q => exact absurd ⟨q, rfl⟩ hretry
      | _ => rfl
    rw [hletters] at hp
    obtain ⟨letter, hmem, haddress⟩ := List.mem_filterMap.mp hp
    obtain ⟨j, -, rfl⟩ := Option.map_eq_some_iff.mp haddress
    exact .inr ⟨letter, hmem, haddress, rfl, rfl⟩

/-- The timer that an effect starts. -/
def alarm (site : Site ρ σ) (k : Nat) : Effect → List Timer
  | .scheduleElection delay => [⟨site.now + delay.nanos, k⟩]
  | _ => []

/-- From `site` to `site'` this mail came in, these timers were started, and these replies arrived.
Notes apart, nothing else changed. -/
structure Absorbs (site site' : Site ρ σ) (mail : List Posting) (alarms : List Timer)
    (replies : List (ClientRequest × CommandReply)) : Prop where
  hosts : ∀ j : Nat, site'.hosts[j]? = site.hosts[j]?.map fun h => h.postAll (mailFor j mail)
  routes : site'.routes = site.routes
  timers : site'.timers = site.timers
  now : site'.now = site.now
  started : site'.ready.filterMap Task.timer? = site.ready.filterMap Task.timer? ++ alarms
  queued : ∀ j, .host j ∈ site.ready → .host j ∈ site'.ready
  woken : ∀ p ∈ mail, site.isOpen p.host = true → .host p.host ∈ site'.ready
  clients : site'.clients = replies.foldl (fun c a => c.answer a.1 a.2) site.clients
  queries : site'.queries = site.queries

namespace Absorbs

variable {mail more : List Posting} {alarms alarms' : List Timer}
  {replies replies' : List (ClientRequest × CommandReply)}

theorem refl : Absorbs site site [] [] [] where
  hosts j := by
    rw [show (fun h : Host ρ σ => h.postAll (mailFor j [])) = id from rfl, Option.map_id_fun, id]
  routes := rfl
  timers := rfl
  now := rfl
  started := (List.append_nil _).symm
  queued _ hj := hj
  woken _ hp := by cases hp
  clients := rfl
  queries := rfl

theorem isOpen (h : Absorbs site site' mail alarms replies) (j : Nat) :
    site'.isOpen j = site.isOpen j := by
  unfold Site.isOpen
  rw [h.hosts j]
  cases site.hosts[j]? with
  | none => rfl
  | some host => exact Host.isOpen_postAll _

theorem length_hosts (h : Absorbs site site' mail alarms replies) :
    site'.hosts.length = site.hosts.length := by
  have hle := h.hosts site.hosts.length
  have hge := h.hosts site'.hosts.length
  rw [List.getElem?_eq_none (Nat.le_refl _)] at hle hge
  exact Nat.le_antisymm (List.getElem?_eq_none_iff.mp hle)
    (List.getElem?_eq_none_iff.mp (Option.map_eq_none_iff.mp hge.symm))

theorem trans (h : Absorbs site site₁ mail alarms replies)
    (h' : Absorbs site₁ site' more alarms' replies') :
    Absorbs site site' (mail ++ more) (alarms ++ alarms') (replies ++ replies') where
  hosts j := by
    rw [h'.hosts, h.hosts, Option.map_map, mailFor_append]
    congr 1
    funext host
    exact (Host.postAll_append _ _).symm
  routes := h'.routes.trans h.routes
  timers := h'.timers.trans h.timers
  now := h'.now.trans h.now
  started := by rw [h'.started, h.started, List.append_assoc]
  queued j hj := h'.queued j (h.queued j hj)
  woken p hp ho := by
    rcases List.mem_append.mp hp with hp | hp
    · exact h'.queued _ (h.woken p hp ho)
    · exact h'.woken p hp ((h.isOpen _).trans ho)
  clients := by rw [h'.clients, h.clients, List.foldl_append]
  queries := h'.queries.trans h.queries

theorem address_eq (h : Absorbs site site' mail alarms replies) (k : Nat) :
    site'.address k = site.address k := by
  funext letter
  unfold address route?
  rw [h.routes]

theorem mail_eq (h : Absorbs site site' mail alarms replies) (k : Nat) (host : Host ρ σ) :
    site'.mail k host = site.mail k host := by
  funext e
  unfold Site.mail
  rw [h.address_eq]

theorem alarm_eq (h : Absorbs site site' mail alarms replies) (k : Nat) :
    site'.alarm k = site.alarm k := by
  funext e
  unfold alarm
  rw [h.now]

/-- Where all other fields are as they were, some of the hosts may have got mail. -/
theorem of_post {p : Posting}
    (hhosts : ∀ j : Nat, site'.hosts[j]? = site.hosts[j]?.map fun h =>
      if p.host = j then h.post p.event else h)
    (hready : site'.ready = site.ready ∨ site'.ready = site.ready ++ [.host p.host])
    (hwoken : site.isOpen p.host = true → .host p.host ∈ site'.ready)
    (hrest : site' = { site with hosts := site'.hosts, ready := site'.ready }) :
    Absorbs site site' [p] [] [] where
  hosts j := by
    rw [hhosts, mailFor_singleton]
    congr 1
    funext host
    split <;> rfl
  routes := by rw [hrest]
  timers := by rw [hrest]
  now := by rw [hrest]
  started := by
    rcases hready with h | h
    · rw [h, List.append_nil]
    · rw [h, List.filterMap_append]
      rfl
  queued j hj := by
    rcases hready with h | h
    · rwa [h]
    · rw [h]
      exact List.mem_append_left _ hj
  woken q hq ho := by
    rw [List.mem_singleton] at hq
    subst hq
    exact hwoken ho
  clients := by rw [hrest]; rfl
  queries := by rw [hrest]

end Absorbs

theorem absorbs_post (site : Site ρ σ) (p : Posting) :
    Absorbs site (site.post p.host p.event).2 [p] [] [] := by
  unfold post
  cases hk : site.hosts[p.host]? with
  | none =>
    refine .of_post (fun j => ?_) (.inl rfl) (by simp [isOpen, hk]) rfl
    by_cases hj : p.host = j
    · rw [← hj, hk]
      rfl
    · simp [hj]
  | some host =>
    by_cases ho : host.isOpen = true
    · simp only [ho, if_true]
      refine .of_post (fun j => ?_) ?_ (fun _ => ?_) rfl
      · show (site.hosts.modify p.host (·.post p.event))[j]? = _
        rw [List.getElem?_modify]
        rfl
      · show (if _ then _ else _) = _ ∨ (if _ then _ else _) = _
        by_cases hw : Task.host p.host ∈ site.ready
        · exact .inl (if_pos hw)
        · exact .inr (if_neg hw)
      · show _ ∈ if _ then _ else _
        split
        · assumption
        · simp
    · rw [Bool.not_eq_true] at ho
      simp only [ho, Bool.false_eq_true, if_false]
      refine .of_post (fun j => ?_) (.inl rfl) (by simp [isOpen, hk, ho]) rfl
      by_cases hj : p.host = j
      · rw [← hj, hk]
        simp [Host.post_of_not_isOpen ho]
      · simp [hj]

theorem absorbs_note (site : Site ρ σ) (id : ReplicaId) (e : Effect) :
    Absorbs site (site.note id e) [] [] [] := by
  have h : Absorbs site site [] [] [] := .refl
  exact ⟨h.hosts, rfl, rfl, rfl, h.started, h.queued, h.woken, rfl, rfl⟩

/-- Letters come into the inboxes that their receivers have routes to. -/
theorem absorbs_letters (site : Site ρ σ) (k : Nat) (id : ReplicaId)
    (letters : List (ReplicaId × Message)) :
    Absorbs site
      (letters.foldl (fun site l => (site.note id (.send l.1 l.2)).send l.1 l.2) site)
      (letters.filterMap (site.address k)) [] [] := by
  induction letters generalizing site with
  | nil => exact .refl
  | cons l letters ih =>
    have hsend : Absorbs site ((site.note id (.send l.1 l.2)).send l.1 l.2)
        (site.address k l).toList [] [] := by
      have hnote := absorbs_note site id (.send l.1 l.2)
      rw [send_eq, address]
      cases hroute : site.route? l.1 with
      | none =>
        rw [show (site.note id (.send l.1 l.2)).route? l.1 = none from hroute]
        exact hnote
      | some j =>
        rw [show (site.note id (.send l.1 l.2)).route? l.1 = some j from hroute]
        exact hnote.trans (absorbs_post _ ⟨some k, j, .message l.2⟩)
    have hrest := ih ((site.note id (.send l.1 l.2)).send l.1 l.2)
    rw [hsend.address_eq] at hrest
    have hall := hsend.trans hrest
    rw [List.filterMap_cons]
    cases hl : site.address k l with
    | none => rwa [hl] at hall
    | some p => rwa [hl] at hall

/-- An effect of a replica. -/
theorem absorbs_absorb (site : Site ρ σ) (k : Nat) (h : Host ρ σ) (e : Effect) :
    Absorbs site (absorb k h site e) (site.mail k h e) (site.alarm k e) e.answer?.toList := by
  have hsame : Absorbs site site [] [] [] := .refl
  cases e with
  | broadcast m =>
    have hletters := absorbs_letters site k h.id (h.peers.map (·, m))
    rw [List.foldl_map] at hletters
    exact hletters
  | send p m => exact absorbs_letters site k h.id [(p, m)]
  | retry q => exact absorbs_post site ⟨none, k, .request q⟩
  | scheduleElection delay =>
    refine ⟨hsame.hosts, rfl, rfl, rfl, ?_, fun j hj => List.mem_append_left _ hj,
      fun p hp => absurd hp List.not_mem_nil, rfl, rfl⟩
    show (site.ready ++ _).filterMap _ = _
    rw [List.filterMap_append]
    rfl
  | draw range => exact absorbs_note site h.id _
  | execute slot command value => exact absorbs_note site h.id _
  | reply q r =>
    exact ⟨hsame.hosts, rfl, rfl, rfl, hsame.started, hsame.queued, hsame.woken, rfl, rfl⟩

/-- **All effects of a step.** -/
theorem absorbs_absorbAll (site : Site ρ σ) (k : Nat) (h : Host ρ σ) (effects : List Effect) :
    Absorbs site (effects.foldl (absorb k h) site) (effects.flatMap (site.mail k h))
      (effects.flatMap (site.alarm k)) (answers effects) := by
  induction effects generalizing site with
  | nil => exact .refl
  | cons e effects ih =>
    have hfirst := absorbs_absorb site k h e
    have hrest := ih (absorb k h site e)
    rw [hfirst.mail_eq, hfirst.alarm_eq] at hrest
    rw [List.flatMap_cons, List.flatMap_cons, answers_cons]
    exact hfirst.trans hrest

end Site

end PaxosLog
