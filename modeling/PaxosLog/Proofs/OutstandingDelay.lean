import Mathlib.Data.List.Perm.Basic
import PaxosLog.Proofs.Replica.Delay
import PaxosLog.Proofs.Site.Course

/-!
# At most one delay is outstanding

A replica asks for a delay when it loses a race, and waits for its end. As long as every end that it
is told of is the end of a delay that it asked for (`Replica.PunctualRun`), the delays asked for are
those that have ended and the one that its flag tells of. A host keeps to this: a delay that its
replica asks for is a timer until it goes off, and then an event of the inbox.

* **`Replica.PunctualRun.asked_eq`**: the balance of one replica.
* **`Site.delays_act`**: timers change by what is asked for and what goes off; `Awaited.act` is what
  this means for a host.
* **`one_delay_outstanding`**: both balances, in every run.
-/

namespace PaxosLog

variable {ρ σ : Type} [RandomSource ρ] [StateMachine σ]

/-! ## One replica -/

/-- What inputs make of a replica that is told of the end of a delay only once for each delay that
it asked for. -/
inductive Replica.PunctualRun (fresh : Replica ρ σ) : List Input → Replica ρ σ → List Effect → Prop
  | start : PunctualRun fresh [] fresh []
  | step {inputs : List Input} {r r' : Replica ρ σ} {effects out : List Effect}
      (h : PunctualRun fresh inputs r effects) (now : Duration) (input : Input)
      (hdue : input = .backoffElapsed →
        inputs.count .backoffElapsed < effects.countP Effect.isAlarm)
      (hs : r.step now input = .ok (r', out)) :
      PunctualRun fresh (inputs ++ [input]) r' (effects ++ out)

namespace Replica

namespace PunctualRun

variable {fresh r : Replica ρ σ} {inputs : List Input} {effects : List Effect}

theorem run (h : fresh.PunctualRun inputs r effects) : fresh.Run inputs r effects := by
  induction h with
  | start => exact .start
  | step h now input hdue hs ih => exact ih.step now input hs

/-- **Every delay asked for has ended or is outstanding.** -/
theorem asked_eq (h : fresh.PunctualRun inputs r effects) (hf : Tidy fresh)
    (hidle : fresh.backoff.inFlight = false) :
    effects.countP Effect.isAlarm =
      inputs.count .backoffElapsed + r.backoff.inFlight.toNat := by
  induction h with
  | start => simp [hidle]
  | @step inputs r r' effects out h now input hdue hs ih =>
    obtain ⟨harmed, hsilent⟩ := alarms_of_step (h.run.tidy hf) hs
    rw [List.countP_append, List.count_append]
    by_cases hi : input = .backoffElapsed
    · -- the flag was set, and is the one delay that ends now
      have hset := Bool.toNat_le r.backoff.inFlight
      have hdue := hdue hi
      subst hi
      rw [hsilent rfl, fired_of_step hs, List.count_singleton_self, Bool.toNat_false]
      omega
    · rw [harmed hi, List.count_singleton, if_neg (by simpa using hi)]
      omega

end PunctualRun

/-- Gives inputs to a replica one after another, at time zero, as long as they are due. -/
def feedPunctual (done : List Input) :
    List Input → Replica ρ σ × List Effect → Option (Replica ρ σ × List Effect)
  | [], p => some p
  | input :: inputs, (r, effects) =>
    if input = .backoffElapsed →
        done.count .backoffElapsed < effects.countP Effect.isAlarm then
      match r.step .zero input with
      | .error _ => none
      | .ok (r', out) => feedPunctual (done ++ [input]) inputs (r', effects ++ out)
    else none

theorem punctualRun_of_feed {fresh : Replica ρ σ} {inputs done : List Input}
    {p p' : Replica ρ σ × List Effect} (hp : fresh.PunctualRun done p.1 p.2)
    (h : feedPunctual done inputs p = some p') :
    fresh.PunctualRun (done ++ inputs) p'.1 p'.2 := by
  induction inputs generalizing p done with
  | nil => cases h; rwa [List.append_nil]
  | cons input inputs ih =>
    unfold feedPunctual at h
    split at h
    · rename_i hdue
      split at h
      · cases h
      · rename_i r' out hs
        have hrun := ih (hp.step .zero input hdue hs) h
        rwa [List.append_assoc] at hrun
    · cases h

end Replica

/-! ## Hosts -/

namespace Site

variable {site site' : Site ρ σ} {j k : Nat} {h : Host ρ σ}

/-- How many delays of host number `j` are under way. -/
def delays (site : Site ρ σ) (j : Nat) : Nat :=
  site.timers.countP (·.host = j) + (site.ready.filterMap Task.timer?).countP (·.host = j)

omit [RandomSource ρ] [StateMachine σ] in
theorem Absorbs.delays {mail : List Posting} {alarms : List Timer}
    {replies : List (ClientRequest × CommandReply)} (h : Absorbs site site' mail alarms replies)
    (j : Nat) : site'.delays j = site.delays j + alarms.countP (·.host = j) := by
  unfold Site.delays
  rw [h.timers, h.started, List.countP_append, Nat.add_assoc]

omit [RandomSource ρ] [StateMachine σ] in
theorem delays_post (k : Nat) (e : Event) : (site.post k e).2.delays j = site.delays j :=
  (absorbs_post site ⟨none, k, e⟩).delays j

omit [RandomSource ρ] [StateMachine σ] in
theorem delays_remove (k : Nat) : (site.remove k).delays j = site.delays j := by
  cases hk : site.hosts[k]? with
  | none => simp [remove, hk]
  | some h =>
    rw [remove_eq hk]
    rfl

omit [RandomSource ρ] [StateMachine σ] in
/-- The place of a task in the queue does not matter. -/
theorem delays_eq_of_getElem? {i : Nat} {task : Task} (hi : site.ready[i]? = some task) (j : Nat) :
    site.delays j =
      ({ site with ready := site.ready.eraseIdx i } : Site ρ σ).delays j +
        task.timer?.toList.countP (·.host = j) := by
  obtain ⟨hlt, rfl⟩ := List.getElem?_eq_some_iff.mp hi
  have hperm := (List.getElem_cons_eraseIdx_perm hlt).filterMap Task.timer?
  have hcount := hperm.countP_eq (·.host = j)
  unfold delays
  cases htask : site.ready[i].timer? with
  | none =>
    rw [List.filterMap_cons_none htask] at hcount
    simp [hcount]
  | some t =>
    rw [List.filterMap_cons_some htask, List.countP_cons] at hcount
    simp only [Option.toList_some, List.countP_singleton]
    omega

omit [RandomSource ρ] [StateMachine σ] in
/-- No effect puts the end of a delay into an inbox. -/
theorem count_mail (site : Site ρ σ) (k : Nat) (h : Host ρ σ) (effects : List Effect) (j : Nat) :
    (mailFor j (effects.flatMap (site.mail k h))).count .backoffElapsed = 0 := by
  refine List.count_eq_zero.mpr fun hmem => ?_
  obtain ⟨p, hp, hevent⟩ := List.mem_map.mp hmem
  obtain ⟨e, -, hp⟩ := List.mem_flatMap.mp (List.mem_filter.mp hp).1
  rcases mem_mail hp with ⟨q, -, rfl⟩ | ⟨letter, -, -, -, hmessage⟩
  · cases hevent
  · rw [hevent] at hmessage
    cases hmessage

omit [RandomSource ρ] [StateMachine σ] in
theorem count_alarm (site : Site ρ σ) (k : Nat) (effects : List Effect) (j : Nat) :
    (effects.flatMap (site.alarm k)).countP (·.host = j) =
      if k = j then effects.countP Effect.isAlarm else 0 := by
  induction effects with
  | nil => simp
  | cons e effects ih =>
    rw [List.flatMap_cons, List.countP_append, ih, List.countP_cons]
    cases e <;> by_cases hkj : k = j <;> simp [alarm, Effect.isAlarm, hkj, Nat.add_comm]

/-- A turn of a host starts the delays that its replica asks for. -/
theorem Serves.delays {rest : List Task}
    (hserves : Serves site k h site') (hready : site.ready = .host k :: rest) (j : Nat) :
    site'.delays j =
      site.delays j + if k = j then (h.serve site.now).2.countP Effect.isAlarm else 0 := by
  have htail : ({ site with ready := site.ready.tail } : Site ρ σ).delays j = site.delays j := by
    unfold Site.delays
    rw [hready]
    rfl
  -- only a replica that takes an input asks for delays
  have hquiet : (h.serve site.now).2 = [] → site'.delays j = site.delays j →
      site'.delays j =
        site.delays j + if k = j then (h.serve site.now).2.countP Effect.isAlarm else 0 := by
    intro hnone hsame
    simp [hnone, hsame]
  cases hserves with
  | input replica replica' e inbox input now effects hs he hstep hserve habsorbs =>
    rw [habsorbs.delays, count_alarm, hserve]
    rfl
  | fault replica e inbox hs hserve => exact hquiet (by rw [hserve]) (delays_remove k)
  | status replica query inbox hs => exact hquiet (by simp [Host.serve, hs, Event.input?]) rfl
  | shutdown replica inbox hs =>
    refine hquiet (by simp [Host.serve, hs, Event.input?]) ?_
    rw [discard_eq]
    rfl
  | bury replica inbox hs =>
    exact hquiet (by simp [Host.serve, hs]) ((delays_remove k).trans htail)
  | rest hidle hserve => exact hquiet (by rw [hserve]) htail

/-- **Delays after an act.** -/
theorem delays_act (site : Site ρ σ) (a : Act ρ σ) (j : Nat) :
    (site.act a).delays j + (mailFor j (site.postings a)).count .backoffElapsed =
      site.delays j + (site.emits a j).countP Effect.isAlarm := by
  cases a with
  | start id members config source machine =>
    show (site.act (.start id members config source machine)).delays j = site.delays j
    simp only [act]
    split <;> rfl
  | operate k op =>
    have hnone : (mailFor j (site.postings (.operate k op))).count .backoffElapsed = 0 := by
      simp only [postings, mailFor_singleton]
      split
      · cases op <;> rfl
      · rfl
    have hsame : (site.operate k op).2.delays j = site.delays j := by
      cases ho : site.isOpen k with
      | true =>
        rw [operate_of_isOpen op ho, delays_post]
        cases op <;> rfl
      | false =>
        rw [operate_of_not_isOpen op ho]
        cases op <;> rfl
    rw [hnone]
    exact hsame
  | kill k =>
    show (((site.modifyHost k Host.kill).wake k).delays j = site.delays j)
    unfold delays wake
    simp only
    split
    · rfl
    · rw [List.filterMap_append]
      simp [Task.timer?, modifyHost]
  | register k =>
    show (site.act (.register k)).delays j = site.delays j
    simp only [act]
    split <;> rfl
  | disconnect id => rfl
  | turn i =>
    have hturns := turns_act site i
    generalize site.act (.turn i) = site' at hturns ⊢
    cases hturns with
    | idle hi => simp [postings, emits, hi]
    | ring t hi hdue =>
      have hdelays := delays_eq_of_getElem? hi j
      rw [delays_post]
      simp only [postings, emits, hi, hdue, if_true, mailFor_singleton, Option.some.injEq,
        reduceCtorEq, if_false, Task.timer?, Option.toList_some, List.countP_singleton] at hdelays ⊢
      by_cases hj : t.host = j <;> simp [hj] at hdelays ⊢ <;> omega
    | set t hi hdue =>
      have hdelays := delays_eq_of_getElem? hi j
      simp only [postings, emits, hi, hdue, mailFor_nil, Option.some.injEq, reduceCtorEq, if_false,
        Task.timer?, Option.toList_some, List.count_nil, List.countP_nil] at hdelays ⊢
      rw [hdelays]
      simp only [delays, List.countP_append]
      omega
    | nobody k hi hk =>
      have hdelays := delays_eq_of_getElem? hi j
      have hquiet : site.emits (.turn i) j = [] := by
        by_cases hkj : k = j
        · subst hkj
          simp [emits, hk]
        · simp [emits, hi, hkj]
      rw [hquiet, hdelays]
      simp [postings, hi, hk, Task.timer?]
    | serve k h hi hk hserves =>
      have hdelays := delays_eq_of_getElem? hi j
      have hfront : ({ site with ready := .host k :: site.ready.eraseIdx i } : Site ρ σ).delays j =
          site.delays j := hdelays.symm
      have hasked : (site.emits (.turn i) j).countP Effect.isAlarm =
          if k = j then (h.serve site.now).2.countP Effect.isAlarm else 0 := by
        by_cases hkj : k = j
        · subst hkj
          simp [emits, hi, hk]
        · simp [emits, hi, hkj]
      have hmail : (mailFor j (site.postings (.turn i))).count .backoffElapsed = 0 := by
        simp only [postings, hi, hk]
        exact count_mail ..
      rw [hserves.delays rfl j, hfront, hasked, hmail]
      rfl
  | expire i =>
    simp only [act, postings, emits]
    cases hi : site.timers[i]? with
    | none => rfl
    | some t =>
      obtain ⟨hlt, rfl⟩ := List.getElem?_eq_some_iff.mp hi
      have hcount := (List.getElem_cons_eraseIdx_perm hlt).countP_eq (·.host = j)
      rw [List.countP_cons] at hcount
      simp only [delays_post, Option.toList_some, List.map_singleton, mailFor_singleton]
      simp only [delays]
      by_cases hj : site.timers[i].host = j <;> simp [hj] at hcount ⊢ <;> omega
  | wait now => rfl
  | release k =>
    show (if site.isOpen k then site else site.remove k).delays j = site.delays j
    split
    · rfl
    · exact delays_remove k

end Site

/-- For a host that runs, the delays under way and the ends of delays in its inbox are those that
the flag of its replica tells of. -/
def Host.Awaits (h : Host ρ σ) (delays : Nat) : Prop :=
  ∀ replica inbox, h.state = .running replica inbox →
    delays + inbox.count .backoffElapsed = replica.backoff.inFlight.toNat

namespace Host.Awaits

variable {h h' : Host ρ σ} {delays : Nat}

omit [RandomSource ρ] [StateMachine σ] in
/-- Delays that have passed are in the inbox. -/
theorem postAll {events : List Event} (ha : h.Awaits (delays + events.count .backoffElapsed)) :
    (h.postAll events).Awaits delays := by
  intro replica inbox hs
  cases hstate : h.state with
  | running replica₀ inbox₀ =>
    rw [postAll_running hstate] at hs
    cases hs
    have := ha _ _ hstate
    rw [List.count_append]
    omega
  | killed replica₀ inbox₀ =>
    rw [postAll_killed hstate] at hs
    cases hs
  | returned | gone =>
    rw [postAll_of_not_isOpen (by simp [isOpen, hstate]), hstate] at hs
    cases hs

/-- **A turn of the host.** -/
theorem serve (ha : h.Awaits delays) (htidy : ∀ replica inbox,
    h.state = .running replica inbox → Tidy replica) (now : Nat) :
    (h.serve now).1.Awaits (delays + (h.serve now).2.countP Effect.isAlarm) := by
  have hturned := Host.turned_serve now h
  generalize h.handles? = e, (h.serve now).1 = h', (h.serve now).2 = out at hturned ⊢
  cases hturned with
  | input replica replica' e inbox input time hs he htime hstep =>
    obtain ⟨harmed, hsilent⟩ := alarms_of_step (htidy _ _ hs) hstep
    have hbefore := ha _ _ hs
    intro _ _ hafter
    cases hafter
    rw [List.count_cons] at hbefore
    by_cases hi : input = .backoffElapsed
    · obtain rfl : e = .backoffElapsed := by cases e <;> simp_all [Event.input?]
      subst hi
      -- the delay that has passed was the only one
      have hset := Bool.toNat_le replica.backoff.inFlight
      rw [hsilent rfl, fired_of_step hstep, Bool.toNat_false]
      simp only [BEq.rfl, if_true] at hbefore
      omega
    · have hne : e ≠ .backoffElapsed := by
        rintro rfl
        exact hi (Option.some_inj.mp he).symm
      simp only [beq_iff_eq, hne, if_false] at hbefore
      rw [harmed hi]
      omega
  | fault replica e inbox hs hne => exact fun _ _ hafter => by cases hafter
  | status replica query inbox hs =>
    intro _ _ hafter
    cases hafter
    have := ha _ _ hs
    simpa using this
  | shutdown replica inbox hs => exact fun _ _ hafter => by cases hafter
  | bury replica inbox hs => exact fun _ _ hafter => by cases hafter
  | rest hidle => exact ha

end Host.Awaits

namespace Site

variable {as : List (Act ρ σ)} {j : Nat} {h : Host ρ σ}

/-- **Every act keeps this.** -/
theorem awaits_act {site : Site ρ σ} (hj : site.hosts[j]? = some h)
    (htidy : ∀ replica inbox, h.state = .running replica inbox → Tidy replica)
    (ha : h.Awaits (site.delays j)) (a : Act ρ σ) :
    ∃ h', (site.act a).hosts[j]? = some h' ∧ h'.Awaits ((site.act a).delays j) := by
  refine ⟨_, getElem?_act site a hj, ?_⟩
  rw [postAll_arrivals hj isOpen_own]
  refine .postAll ?_
  rw [delays_act]
  cases a with
  | turn i =>
    simp only [own, emits, hj, Option.toList_some, List.flatMap_singleton]
    split
    · exact ha.serve htidy site.now
    · exact ha
  | kill k =>
    simp only [own]
    split
    · intro replica inbox hs
      unfold Host.kill at hs
      cases hstate : h.state <;> simp_all
    · exact ha
  | release k =>
    simp only [own]
    split
    · exact fun _ _ hs => by cases hs
    · exact ha
  | _ => exact ha

/-- The replica of a host is tidy. -/
theorem tidy_of_acts (hj : (empty.acts as).hosts[j]? = some h) {replica : Replica ρ σ}
    {inbox : List Event} (hs : h.state = .running replica inbox) : Tidy replica := by
  obtain ⟨members, config, source, machine, fresh, -, -, -, hstart, hserved⟩ := exists_served hj
  rw [hs] at hserved
  cases hserved with
  | running _ _ hcame hnone hrun => exact hrun.tidy (.start hstart)

/-- **The balance of a host.** -/
theorem awaits_of_acts (as : List (Act ρ σ)) (j : Nat) :
    match (empty.acts as).hosts[j]? with
    | none => (empty.acts as).delays j = 0
    | some h => h.Awaits ((empty.acts as).delays j) := by
  induction as using List.reverseRecOn with
  | nil => rfl
  | append_singleton as a ih =>
    rw [acts_concat]
    cases hj : (empty.acts as).hosts[j]? with
    | some h =>
      rw [hj] at ih
      obtain ⟨h', hj', ha⟩ := awaits_act hj (fun _ _ hs => tidy_of_acts hj hs) ih a
      rw [hj']
      exact ha
    | none =>
      rw [hj] at ih
      have hdelays := delays_act (empty.acts as) a j
      rw [(quiet_of_not_isOpen (isOpen_of_none hj) a).2.2, ih] at hdelays
      have hnone : ((empty.acts as).act a).delays j = 0 := by
        rw [List.countP_nil] at hdelays
        omega
      cases hnew : ((empty.acts as).act a).hosts[j]? with
      | none => exact hnone
      | some h =>
        obtain ⟨-, id, members, config, source, machine, rfl, hstart⟩ :=
          getElem?_act_of_none hj hnew
        obtain ⟨-, fresh, hfresh, rfl⟩ := Host.start_eq_ok hstart
        obtain ⟨quorums, rfl⟩ := Replica.start_eq_ok hfresh
        intro replica inbox hs
        cases hs
        rw [hnone]
        rfl

end Site

/-- **At most one delay is outstanding.** A replica that is told of the end of a delay only once for
each delay that it asked for has asked for as many as have ended, and for one more exactly if its
flag is set; and no further input makes it fail, unless a counter is at its limit or no delay can be
made. Whatever happens at a site, in whatever order, between two events of a host that runs, the
delays under way for it and the ends of delays in its inbox are one if the flag of its replica is
set, and none otherwise. -/
theorem one_delay_outstanding :
    (∀ (id : ReplicaId) (n : Nat) (config : Config) (source : ρ) (machine : σ)
        (fresh r : Replica ρ σ) (inputs : List Input) (effects : List Effect),
      Replica.start id n config source machine = .ok fresh →
      fresh.PunctualRun inputs r effects →
        effects.countP Effect.isAlarm =
          inputs.count .backoffElapsed + (if r.status.backoffInFlight then 1 else 0) ∧
        ∀ now input f, r.step now input = .error f →
          r.AtLimit input f) ∧
    ∀ (as : List (Site.Act ρ σ)) (j : Nat) (h : Host ρ σ) (replica : Replica ρ σ)
        (inbox : List Event),
      (Site.empty.acts as).hosts[j]? = some h → h.state = .running replica inbox →
        (Site.empty.acts as).delays j + inbox.count .backoffElapsed =
          if replica.status.backoffInFlight then 1 else 0 := by
  have hflag : ∀ r : Replica ρ σ,
      r.backoff.inFlight.toNat = if r.status.backoffInFlight then 1 else 0 := by
    intro r
    show _ = if r.backoff.inFlight then 1 else 0
    cases r.backoff.inFlight <;> rfl
  refine ⟨fun id n config source machine fresh r inputs effects hstart hrun => ?_,
    fun as j h replica inbox hj hs => ?_⟩
  · have hf := Tidy.start hstart
    refine ⟨?_, fun now input f hs => atLimit_of_step (hrun.run.tidy hf) hs⟩
    rw [← hflag]
    refine hrun.asked_eq hf ?_
    obtain ⟨quorums, rfl⟩ := Replica.start_eq_ok hstart
    rfl
  · rw [← hflag]
    have hawaits := Site.awaits_of_acts as j
    rw [hj] at hawaits
    exact hawaits _ _ hs

namespace Site

/-- Host 1 of three asks to be elected, hears of a higher ballot and waits for a delay, which
passes. -/
def overtaken : List (Act Script Journal) :=
  [.start 1 [1, 2, 3] .standard ⟨[]⟩ .empty, .operate 0 (.submit [65]), .turn 0,
    .operate 0 (.deliver (.prepare ⟨⟨2, some 2⟩, 1⟩)), .turn 0, .turn 1, .expire 0]

end Site

/-- A replica that hears of two higher ballots in a row asks for one delay, and after its end, when
it is overtaken again, for another one. The delay of a host that has passed is in its inbox. -/
theorem one_delay_outstanding_overtaken :
    (∃ (r : Replica Script Journal) (inputs : List Input) (effects : List Effect),
      (Network.trio.replica 1).PunctualRun inputs r effects ∧
      inputs.count .backoffElapsed = 1 ∧ r.status.backoffInFlight = true ∧
      effects.countP Effect.isAlarm = 1 + 1) ∧
    ∃ (h : Host Script Journal) (replica : Replica Script Journal),
      (Site.empty.acts Site.overtaken).hosts[0]? = some h ∧
      h.state = .running replica [.backoffElapsed] ∧ replica.status.backoffInFlight = true ∧
      (Site.empty.acts Site.overtaken).delays 0 + 1 = 1 := by
  constructor
  · obtain ⟨p, hp, hflag⟩ := (Option.any_eq_true _ _).mp (show
      (Replica.feedPunctual []
        [.request ⟨0, [65]⟩, .message (.prepare ⟨⟨2, some 2⟩, 1⟩),
          .message (.prepare ⟨⟨3, some 3⟩, 1⟩), .backoffElapsed,
          .message (.prepare ⟨⟨5, some 2⟩, 1⟩)] (Network.trio.replica 1, [])).any
        (fun p => p.1.backoff.inFlight) = true by decide +kernel)
    have hrun := Replica.punctualRun_of_feed (p := (Network.trio.replica 1, [])) .start hp
    have hstart : Replica.start 1 3 .standard (⟨[]⟩ : Script) Journal.empty =
        .ok (Network.trio.replica 1) := rfl
    have hasked := (one_delay_outstanding.1 _ _ _ _ _ _ _ _ _ hstart hrun).1
    rw [show p.1.status.backoffInFlight = true from hflag] at hasked
    exact ⟨p.1, _, p.2, hrun, by decide, hflag, hasked⟩
  · obtain ⟨h, hj, hstate⟩ := (Option.any_eq_true _ _).mp (show
      ((Site.empty.acts Site.overtaken).hosts[0]?.any fun h =>
        h.isRunning && h.inbox = [.backoffElapsed] &&
          h.replica?.any (·.backoff.inFlight)) = true by
      rw [Site.overtaken, Site.acts_trio _ 1 (by decide)]
      decide +kernel)
    cases hs : h.state with
    | running replica inbox =>
      simp only [Host.inbox, Host.replica?, hs, Bool.and_eq_true, decide_eq_true_eq,
        Option.any_some] at hstate
      obtain ⟨⟨-, rfl⟩, hflag⟩ := hstate
      have hbalance := one_delay_outstanding.2 _ 0 h replica _ hj hs
      rw [show replica.status.backoffInFlight = true from hflag] at hbalance
      exact ⟨h, replica, hj, hs, hflag, hbalance⟩
    | _ => simp [Host.isRunning, hs] at hstate

end PaxosLog
