import Mathlib.Data.List.Perm.Basic
import PaxosLog.Proofs.Site.Custody

/-!
# What becomes of the clients of a host that stops

A host handles exactly what came in before the first shutdown, in order, and stops there; whatever
came in behind the shutdown is discarded. So everything that somebody may wait for is settled then,
with one exception: a request in the queue or the log of the replica stays open as long as the
owner of the stopped host keeps the replica that was handed to them.

* `Site.queued_act`, `Site.woken_act`: a host with something to do waits for its turn.
* **`stopped_host_settles`**: what came in, what was handled, and how it ends.
* **`returned_replica_keeps_waiting`**: the exception does occur.
-/

namespace PaxosLog

variable {ρ σ : Type}

/-- The host has something to do when it has its turn. -/
def Host.isBusy (h : Host ρ σ) : Bool :=
  match h.state with
  | .running _ inbox => !inbox.isEmpty
  | .killed .. => true
  | _ => false

variable [RandomSource ρ] [StateMachine σ]

namespace Site

variable {site site' : Site ρ σ} {j k : Nat} {h : Host ρ σ} {a : Act ρ σ}

/-! ## Turns -/

omit [RandomSource ρ] [StateMachine σ] in
theorem queued_post (k : Nat) (e : Event) (hj : .host j ∈ site.ready) :
    .host j ∈ (site.post k e).2.ready :=
  (absorbs_post site ⟨none, k, e⟩).queued j hj

omit [RandomSource ρ] [StateMachine σ] in
theorem ready_remove (k : Nat) : (site.remove k).ready = site.ready := by
  cases hk : site.hosts[k]? with
  | none => simp [remove, hk]
  | some h => rw [remove_eq hk]

/-- A host that has its turn waits for the next one, unless there is nothing left to do. -/
theorem Serves.queued {rest : List Task} (hserves : Serves site k h site')
    (hready : site.ready = .host k :: rest) (hj : .host j ∈ site.ready) :
    .host j ∈ site'.ready ∨ k = j ∧ (h.serve site.now).1.isBusy = false := by
  have htail : k ≠ j → .host j ∈ site.ready.tail := by
    intro hne
    rw [hready, List.mem_cons] at hj
    rw [hready]
    exact hj.resolve_left fun heq => hne (Task.host.inj heq).symm
  cases hserves with
  | input replica replica' e inbox input now effects hs he hstep hserve habsorbs =>
    exact .inl (habsorbs.queued j hj)
  | fault replica e inbox hs hserve =>
    rw [ready_remove]
    exact .inl hj
  | status replica query inbox hs => exact .inl hj
  | shutdown replica inbox hs =>
    rw [discard_eq]
    exact .inl hj
  | bury replica inbox hs =>
    by_cases hkj : k = j
    · exact .inr ⟨hkj, by simp [Host.serve, hs, Host.isBusy]⟩
    · rw [ready_remove]
      exact .inl (htail hkj)
  | rest hidle hserve =>
    by_cases hkj : k = j
    · refine .inr ⟨hkj, ?_⟩
      rw [hserve]
      unfold Host.isBusy
      cases hs : h.state with
      | running replica inbox => simpa [Host.inbox, hs] using hidle
      | killed replica inbox =>
        rw [Host.serve, hs] at hserve
        have hgone := congrArg (fun p => p.1.state) hserve
        simp [hs] at hgone
      | returned | gone => rfl
    · exact .inl (htail hkj)

omit [RandomSource ρ] [StateMachine σ] in
theorem mem_eraseIdx_of_ne {i : Nat} {task : Task} (hi : site.ready[i]? = some task)
    (hne : task ≠ .host j) (hj : .host j ∈ site.ready) : .host j ∈ site.ready.eraseIdx i := by
  obtain ⟨hlt, rfl⟩ := List.getElem?_eq_some_iff.mp hi
  have hmem := (List.getElem_cons_eraseIdx_perm hlt).mem_iff.mpr hj
  exact (List.mem_cons.mp hmem).resolve_left fun heq => hne heq.symm

/-- A host stays in the queue until there is nothing left to do. -/
theorem queued_act (hh : site.hosts[j]? = some h) (hj : .host j ∈ site.ready) (a : Act ρ σ) :
    .host j ∈ (site.act a).ready ∨ (site.own a j h).isBusy = false := by
  cases a with
  | start id members config source machine =>
    simp only [act]
    split <;> exact .inl hj
  | operate k op =>
    show .host j ∈ (site.operate k op).2.ready ∨ _
    cases ho : site.isOpen k with
    | true =>
      rw [operate_of_isOpen op ho]
      exact .inl (queued_post k _ (by cases op <;> exact hj))
    | false =>
      rw [operate_of_not_isOpen op ho]
      exact .inl (by cases op <;> exact hj)
  | kill k =>
    refine .inl ?_
    show _ ∈ if _ then _ else _
    split
    · exact hj
    · exact List.mem_append_left _ hj
  | register k =>
    simp only [act]
    split <;> exact .inl hj
  | disconnect id => exact .inl hj
  | turn i =>
    have hturns := turns_act site i
    generalize site.act (.turn i) = site' at hturns ⊢
    cases hturns with
    | idle hi => exact .inl hj
    | ring t hi hdue => exact .inl (queued_post _ _ (mem_eraseIdx_of_ne hi (by simp) hj))
    | set t hi hdue => exact .inl (mem_eraseIdx_of_ne hi (by simp) hj)
    | nobody k hi hk =>
      refine .inl (mem_eraseIdx_of_ne hi (fun heq => ?_) hj)
      cases heq
      rw [hk] at hh
      cases hh
    | serve k g hi hk hserves =>
      have hmem : .host j ∈ Task.host k :: site.ready.eraseIdx i := by
        by_cases hkj : k = j
        · rw [hkj]
          exact List.mem_cons_self
        · exact List.mem_cons_of_mem _ (mem_eraseIdx_of_ne hi (by simpa using hkj) hj)
      rcases hserves.queued rfl hmem with hqueued | ⟨rfl, hrests⟩
      · exact .inl hqueued
      · obtain rfl : g = h := Option.some_inj.mp (hk.symm.trans hh)
        exact .inr (by simpa [own, hi] using hrests)
  | expire i =>
    simp only [act]
    split
    · exact .inl (queued_post _ _ hj)
    · exact .inl hj
  | wait now => exact .inl hj
  | release k =>
    simp only [act]
    split
    · exact .inl hj
    · rw [ready_remove]
      exact .inl hj

omit [RandomSource ρ] [StateMachine σ] in
theorem isOpen_modifyHost {f : Host ρ σ → Host ρ σ}
    (hf : ∀ h : Host ρ σ, h.isOpen = true → (f h).isOpen = true) (ho : site.isOpen j = true) :
    (site.modifyHost k f).isOpen j = true := by
  unfold isOpen modifyHost at *
  rw [List.getElem?_modify]
  cases hj : site.hosts[j]? with
  | none => rw [hj] at ho; cases ho
  | some h =>
    rw [hj] at ho
    show Host.isOpen (if k = j then f h else h) = true
    split
    · exact hf h ho
    · exact ho

/-- An event that comes in wakes its host. -/
theorem woken_act {p : Posting} (hp : p ∈ site.arrivals a j) : .host j ∈ (site.act a).ready := by
  have hopen : site.isOpen j = true := by
    by_contra hc
    rw [(quiet_of_not_isOpen (by simpa using hc) a).1] at hp
    cases hp
  rw [arrivals, if_pos hopen] at hp
  obtain ⟨hmem, hhost⟩ := List.mem_filter.mp hp
  have hhost : p.host = j := of_decide_eq_true hhost
  have hpost : ∀ {site' : Site ρ σ} {e : Event}, site'.hosts = site.hosts →
      .host j ∈ (site'.post j e).2.ready := by
    intro site' e hhosts
    refine (absorbs_post site' ⟨none, j, e⟩).woken _ (List.mem_singleton_self _) ?_
    rwa [isOpen, hhosts]
  cases a with
  | operate k op =>
    obtain rfl := List.mem_singleton.mp hmem
    obtain rfl : k = j := hhost
    show .host k ∈ (site.operate k op).2.ready
    rw [operate_of_isOpen op hopen]
    exact hpost (by cases op <;> rfl)
  | turn i =>
    have hturns := turns_act site i
    generalize site.act (.turn i) = site' at hturns ⊢
    cases hturns with
    | idle hi => simp [postings, hi] at hmem
    | ring t hi hdue =>
      simp only [postings, hi, hdue, if_true] at hmem
      obtain rfl := List.mem_singleton.mp hmem
      obtain rfl : t.host = j := hhost
      exact hpost rfl
    | set t hi hdue => simp [postings, hi, hdue] at hmem
    | nobody k hi hk => simp [postings, hi, hk] at hmem
    | serve k g hi hk hserves =>
      simp only [postings, hi, hk] at hmem
      cases hserves with
      | input replica replica' e inbox input now effects hs he hstep hserve habsorbs =>
        rw [hserve] at hmem
        subst hhost
        exact habsorbs.woken p hmem (isOpen_modifyHost (fun _ _ => rfl) hopen)
      | fault replica e inbox hs hserve =>
        rw [hserve] at hmem
        cases hmem
      | status | shutdown => simp_all [Host.serve, Event.input?]
      | bury => simp_all [Host.serve]
      | rest hidle hserve =>
        rw [hserve] at hmem
        cases hmem
  | expire i =>
    simp only [act, postings] at hmem ⊢
    cases hi : site.timers[i]? with
    | none => simp [hi] at hmem
    | some t =>
      simp only [hi, Option.toList_some, List.map_singleton] at hmem
      obtain rfl := List.mem_singleton.mp hmem
      obtain rfl : t.host = j := hhost
      exact hpost rfl
  | _ => cases hmem

/-- What a host does itself does not give it something to do, unless it is killed. -/
theorem isBusy_own (hbusy : (site.own a j h).isBusy = true) : h.isBusy = true ∨ a = .kill j := by
  cases a with
  | kill k =>
    simp only [own] at hbusy
    split at hbusy
    · rename_i hkj
      exact .inr (by rw [hkj])
    · exact .inl hbusy
  | release k =>
    simp only [own] at hbusy
    split at hbusy
    · cases hbusy
    · exact .inl hbusy
  | turn i =>
    simp only [own] at hbusy
    split at hbusy
    · have hturned := Host.turned_serve site.now h
      generalize h.handles? = e, (h.serve site.now).1 = h', (h.serve site.now).2 = out
        at hturned hbusy
      refine .inl ?_
      unfold Host.isBusy
      cases hturned with
      | input _ _ _ _ _ _ hs | status _ _ _ hs => rw [hs]; rfl
      | fault | shutdown | bury => cases hbusy
      | rest hidle => exact hbusy
    · exact .inl hbusy
  | _ => exact .inl hbusy

/-- **A host with something to do waits for its turn.** -/
theorem awake_act (hh : site.hosts[j]? = some h)
    (hawake : h.isBusy = true → .host j ∈ site.ready) (a : Act ρ σ)
    (hbusy : ((site.own a j h).postAll ((site.arrivals a j).map Posting.event)).isBusy = true) :
    .host j ∈ (site.act a).ready := by
  cases hcame : site.arrivals a j with
  | cons p rest => exact woken_act (by rw [hcame]; exact List.mem_cons_self)
  | nil =>
    rw [hcame] at hbusy
    change (site.own a j h).isBusy = true at hbusy
    rcases isBusy_own hbusy with hbefore | rfl
    · rcases queued_act hh (hawake hbefore) a with hqueued | hrests
      · exact hqueued
      · rw [hrests] at hbusy
        cases hbusy
    · show _ ∈ if _ then _ else _
      split
      · assumption
      · exact List.mem_append_right _ (List.mem_singleton_self _)

theorem awake_of_acts {as : List (Act ρ σ)} (hj : (empty.acts as).hosts[j]? = some h)
    (hbusy : h.isBusy = true) : .host j ∈ (empty.acts as).ready := by
  induction as using List.reverseRecOn generalizing h with
  | nil => cases hj
  | append_singleton as a ih =>
    rw [acts_concat] at hj ⊢
    cases hbefore : (empty.acts as).hosts[j]? with
    | some g =>
      rw [getElem?_act _ a hbefore, Option.some_inj] at hj
      exact awake_act hbefore (fun hg => ih hbefore hg) a (hj ▸ hbusy)
    | none =>
      obtain ⟨-, id, members, config, source, machine, rfl, hstart⟩ :=
        getElem?_act_of_none hbefore hj
      obtain ⟨-, fresh, -, rfl⟩ := Host.start_eq_ok hstart
      cases hbusy

end Site

namespace Site

/-! ## Stopped hosts -/

/-- What an operation brings comes in as long as the host takes events. -/
theorem mem_came_of_operate (before after : List (Act ρ σ)) (op : Operation)
    (ho : (empty.acts before).isOpen j = true) :
    op.event (empty.acts before) ∈
      (empty.came (before ++ .operate j op :: after) j).map Posting.event := by
  rw [List.append_cons, came_append, came_append, came_singleton]
  refine List.mem_map.mpr ⟨⟨none, j, op.event (empty.acts before)⟩, ?_, rfl⟩
  refine List.mem_append_left _ (List.mem_append_right _ ?_)
  rw [arrivals, if_pos ho]
  exact List.mem_filter.mpr ⟨List.mem_singleton_self _, by simp⟩

omit [RandomSource ρ] [StateMachine σ] in
/-- With a host that stopped, questions are settled. -/
theorem question_settled {site : Site ρ σ} {came : List Event} (hc : site.Custody came h)
    (hstopped : h.isOpen = false) {i : Nat} (hi : .status i ∈ came) :
    (∃ s, site.queries[i]? = some (.answered s)) ∨ site.queries[i]? = some .refused := by
  obtain ⟨⟨s, hs⟩, hholds⟩ := hc _ hi
  cases s with
  | waiting =>
    have hinbox : .status i ∈ h.inbox := hholds hs
    unfold Host.isOpen at hstopped
    unfold Host.inbox at hinbox
    cases hstate : h.state <;> simp_all
  | answered s => exact .inl ⟨s, hs⟩
  | refused => exact .inr hs

omit [RandomSource ρ] [StateMachine σ] in
/-- With a host that stopped, requests are settled, unless the replica that it returned has them. -/
theorem request_settled {site : Site ρ σ} {came : List Event} (hc : site.Custody came h)
    (hstopped : h.isOpen = false) {q : ClientRequest} (hq : .request q ∈ came) :
    (∃ reply, site.clients.receivers[q.ticket]? = some (.answered reply)) ∨
      site.clients.receivers[q.ticket]? = some .dropped ∨
      site.clients.receivers[q.ticket]? = some .waiting ∧
        ∃ replica, h.state = .returned replica ∧ q ∈ replica.requests := by
  obtain ⟨⟨r, hr, hpresent⟩, hholds⟩ := hc _ hq
  cases r with
  | waiting =>
    have hheld : q ∈ h.requests := hholds hr
    unfold Host.isOpen at hstopped
    unfold Host.requests at hheld
    cases hstate : h.state with
    | running | killed => rw [hstate] at hstopped; cases hstopped
    | returned replica =>
      rw [hstate] at hheld
      exact .inr (.inr ⟨hr, replica, rfl, hheld⟩)
    | gone =>
      rw [hstate] at hheld
      cases hheld
  | answered reply => exact .inl ⟨reply, hr⟩
  | dropped => exact .inr (.inl hr)
  | gone => exact absurd rfl hpresent

end Site

/-- **What becomes of the clients of a host that stops.** Whatever happens at a site, in whatever
order: what an operation brings comes into the inbox of the host, or the operation is refused. A
host that runs has handled what came in, each event once and in order, up to the events that are
still in its inbox, and with any it waits for its turn. A host that stopped after a shutdown handled
exactly what came in before the first one, and its replica is what the inputs among these events
made of it. Once a host has stopped, every question that came in is answered or refused; every
request that came in is answered or dropped, or the replica that was handed to the owner of the host
still has it; nothing more comes in or is handled; and every operation is refused. -/
theorem stopped_host_settles {as : List (Site.Act ρ σ)} {j : Nat} {h : Host ρ σ}
    {came : List Event} (hj : (Site.empty.acts as).hosts[j]? = some h)
    (hcame : came = (Site.empty.came as j).map Posting.event) :
    (∀ before op after, as = before ++ .operate j op :: after →
      ((Site.empty.acts before).operate j op).1 = .done ∧
          op.event (Site.empty.acts before) ∈ came ∨
        ((Site.empty.acts before).operate j op).1 = .refused .shutdown) ∧
    (∀ replica inbox, h.state = .running replica inbox →
      came = Site.empty.handled as j ++ inbox ∧ .shutdown ∉ Site.empty.handled as j ∧
        (inbox = [] ∨ .host j ∈ (Site.empty.acts as).ready)) ∧
    (∀ replica, h.state = .returned replica →
      .shutdown ∈ came ∧ Site.empty.handled as j = came.takeWhile (· ≠ .shutdown) ∧
      ∃ members config source machine fresh, .start h.id members config source machine ∈ as ∧
        Replica.start h.id (Host.normalize members).length config source machine = .ok fresh ∧
        fresh.Run ((Site.empty.handled as j).filterMap Event.input?) replica
          (Site.empty.emitted as j)) ∧
    (h.isOpen = false →
      (∀ i, .status i ∈ came →
        (∃ s, (Site.empty.acts as).queries[i]? = some (.answered s)) ∨
          (Site.empty.acts as).queries[i]? = some .refused) ∧
      (∀ q, .request q ∈ came →
        (∃ reply, (Site.empty.acts as).clients.receivers[q.ticket]? = some (.answered reply)) ∨
          (Site.empty.acts as).clients.receivers[q.ticket]? = some .dropped ∨
          (Site.empty.acts as).clients.receivers[q.ticket]? = some .waiting ∧
            ∃ replica, h.state = .returned replica ∧ q ∈ replica.requests) ∧
      ∀ more, ∃ h', (Site.empty.acts (as ++ more)).hosts[j]? = some h' ∧
        (h'.state = h.state ∨ h'.state = .gone) ∧
        Site.empty.came (as ++ more) j = Site.empty.came as j ∧
        Site.empty.handled (as ++ more) j = Site.empty.handled as j ∧
        ∀ op, ((Site.empty.acts (as ++ more)).operate j op).1 = .refused .shutdown) := by
  subst hcame
  obtain ⟨members, config, source, machine, fresh, hmem, hmembers, -, hstart, hserved⟩ :=
    Site.exists_served hj
  have hcustody := Site.custody_of_acts hj
  refine ⟨?_, fun replica inbox hs => ?_, fun replica hs => ?_, fun hstopped => ⟨fun i hi =>
    Site.question_settled hcustody hstopped hi, fun q hq =>
    Site.request_settled hcustody hstopped hq, fun more => ?_⟩⟩
  · rintro before op after rfl
    cases ho : (Site.empty.acts before).isOpen j with
    | true => exact .inl ⟨by rw [Site.operate_of_isOpen op ho], Site.mem_came_of_operate _ _ op ho⟩
    | false => exact .inr (by rw [Site.operate_of_not_isOpen op ho])
  · rw [hs] at hserved
    cases hserved with
    | running _ _ hcame hnone hrun =>
      refine ⟨hcame, hnone, or_iff_not_imp_left.mpr fun hne => Site.awake_of_acts hj ?_⟩
      simpa [Host.isBusy, hs] using hne
  · rw [hs] at hserved
    cases hserved with
    | returned _ rest hcame hnone hrun =>
      refine ⟨by simp [hcame], ?_, members, config, source, machine, fresh, hmem,
        hmembers ▸ hstart, hrun⟩
      have hbefore : ∀ e ∈ Site.empty.handled as j, decide (e ≠ .shutdown) = true :=
        fun e he => decide_eq_true fun heq => hnone (heq ▸ he)
      rw [hcame, List.takeWhile_append_of_pos hbefore]
      simp
  · obtain ⟨hcame, hhandled, -, h', hj', hc', hstate⟩ := Site.stopped_acts hj hstopped more
    rw [← Site.acts_append] at hj'
    refine ⟨h', hj', hstate, by rw [Site.came_append, hcame, List.append_nil],
      by rw [Site.handled_append, hhandled, List.append_nil], fun op => ?_⟩
    rw [Site.operate_of_not_isOpen op ((Site.isOpen_eq hj').trans hc')]

namespace Site

/-- Host 1 of three takes a submission, stops, and is asked for another one before it does. -/
def abandoned : List (Act Script Journal) :=
  [.start 1 [1, 2, 3] .standard ⟨[]⟩ .empty, .operate 0 (.submit [65]), .operate 0 .shutdown,
    .operate 0 (.submit [66]), .turn 0, .turn 0, .turn 0]

end Site

/-- The host handled the first submission only, and takes no more operations. -/
theorem stopped_host_settles_abandoned :
    ∃ (h : Host Script Journal) (replica : Replica Script Journal),
      (Site.empty.acts Site.abandoned).hosts[0]? = some h ∧ h.state = .returned replica ∧
      Site.empty.handled Site.abandoned 0 =
        ((Site.empty.came Site.abandoned 0).map Posting.event).takeWhile (· ≠ .shutdown) ∧
      ∀ op, ((Site.empty.acts (Site.abandoned ++ [.wait 1])).operate 0 op).1 =
        .refused .shutdown := by
  obtain ⟨h, hj, hstate⟩ := (Option.any_eq_true _ _).mp (show
    ((Site.empty.acts Site.abandoned).hosts[0]?.any fun h =>
      !h.isOpen && h.replica?.isSome) = true by
    rw [Site.abandoned, Site.acts_trio _ 1 (by decide)]
    decide +kernel)
  cases hs : h.state with
  | returned replica =>
    obtain ⟨-, -, hreturned, hstopped⟩ := stopped_host_settles hj rfl
    obtain ⟨-, -, hlater⟩ := hstopped (by simp [Host.isOpen, hs])
    obtain ⟨-, -, -, -, -, hrefused⟩ := hlater [.wait 1]
    exact ⟨h, replica, hj, hs, (hreturned replica hs).2.1, hrefused⟩
  | _ => simp [Host.isOpen, Host.replica?, hs] at hstate

/-- **The exception occurs.** The second submission, which came in behind the shutdown, is dropped.
Nobody can answer the first one any more, but its client still waits, since it is in the queue of
the returned replica. -/
theorem returned_replica_keeps_waiting :
    ∃ (h : Host Script Journal) (replica : Replica Script Journal),
      (Site.empty.acts Site.abandoned).hosts[0]? = some h ∧ h.state = .returned replica ∧
      .request ⟨0, [65]⟩ ∈ (Site.empty.came Site.abandoned 0).map Posting.event ∧
      replica.pending = [⟨0, [65]⟩] ∧ (Site.empty.acts Site.abandoned).ready = [] ∧
      (Site.empty.acts Site.abandoned).clients.receivers = [.waiting, .dropped] := by
  have hcame := Site.mem_came_of_operate (j := 0)
    [.start 1 [1, 2, 3] .standard (⟨[]⟩ : Script) Journal.empty]
    [.operate 0 .shutdown, .operate 0 (.submit [66]), .turn 0, .turn 0, .turn 0] (.submit [65])
    (by rw [Site.acts_trio _ 1 (by decide)]; rfl)
  rw [Site.acts_trio _ 1 (by decide)] at hcame
  obtain ⟨h, hj, hstate⟩ := (Option.any_eq_true _ _).mp (show
    ((Site.empty.acts Site.abandoned).hosts[0]?.any fun h =>
      !h.isOpen && h.replica?.any (·.pending = [⟨0, [65]⟩])) = true by
    rw [Site.abandoned, Site.acts_trio _ 1 (by decide)]
    decide +kernel)
  cases hs : h.state with
  | returned replica =>
    simp only [Host.isOpen, Host.replica?, hs, Bool.and_eq_true, Option.any_some,
      decide_eq_true_eq] at hstate
    refine ⟨h, replica, hj, hs, hcame, hstate.2, ?_, ?_⟩
    · rw [Site.abandoned, Site.acts_trio _ 1 (by decide)]
      decide +kernel
    · rw [Site.abandoned, Site.acts_trio _ 1 (by decide)]
      decide +kernel
  | _ => simp [Host.isOpen, Host.replica?, hs] at hstate

end PaxosLog
