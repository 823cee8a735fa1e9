import PaxosLog.Proofs.Network.Solo
import PaxosLog.Proofs.Quiescence

/-!
# A single proposer replicates everything in order

Requests come to one replica only, and nobody else is told to start an election. Then the requests
take the slots from the first one on, in the order in which they were submitted: before, during or
after the election. When no message is under way, all of them have been answered and everybody has
executed them (`Network.CarriedOut`). Nobody fails before rounds or slots run out.

The roles of the proposer and of its followers are those of `Solo`. A quiet cluster with an election
is settled, so that all that the proposer has in its log is chosen; what it announced has reached
everybody, and nobody holds anything else; so every cursor stands after the last request.

**`Network.replicated_in_order`**: in every run of a cluster of any size, with any accepted quorums.
-/

namespace PaxosLog

/-- A list walked through together with its positions. -/
theorem filterMap_range'_eq_zipIdx {α β : Type} {f : Nat → Option β} {g : α × Nat → β} {l : List α}
    {n : Nat} (h : ∀ i x, l[i]? = some x → f (n + i) = some (g (x, n + i))) :
    (List.range' n l.length).filterMap f = (l.zipIdx n).map g := by
  induction l generalizing n with
  | nil => rfl
  | cons x l ih =>
    have hfirst : f n = some (g (x, n)) := h 0 x rfl
    have hrest : ∀ i y, l[i]? = some y → f (n + 1 + i) = some (g (y, n + 1 + i)) := by
      intro i y hy
      rw [Nat.add_assoc, Nat.add_comm 1 i]
      exact h (i + 1) y hy
    rw [List.length_cons, List.range'_succ, List.filterMap_cons_some hfirst, ih hrest,
      List.zipIdx_cons, List.map_cons]

variable {ρ σ : Type}

namespace Ledger

variable {offered submitted hand : List ClientRequest} {effects : List Effect} {r : Replica ρ σ}

theorem length_lt (h : Ledger offered submitted hand effects r) : offered.length < UInt64.size :=
  h.filled.highest ▸ r.log.highestSlot.toNat_lt

/-- The request with number `i` has its place at slot `i + 1`. -/
theorem placed_iff (h : Ledger offered submitted hand effects r) {i : Nat} (hi : i < offered.length)
    {q : ClientRequest} : Placed offered (UInt64.ofNat (1 + i)) q ↔ offered[i]? = some q := by
  have hslot : (UInt64.ofNat (1 + i)).toNat = 1 + i :=
    UInt64.toNat_ofNat_of_lt' (Nat.lt_of_le_of_lt (by omega) h.length_lt)
  unfold Placed
  rw [hslot, Nat.add_sub_cancel_left]
  refine ⟨fun hq => hq.2, fun hq => ⟨UInt64.le_iff_toNat_le.mpr ?_, hq⟩⟩
  rw [hslot]
  exact Nat.le_add_right 1 i

/-- A request is answered from its place. -/
theorem placed_answer (h : Ledger offered submitted hand effects r)
    {a : ClientRequest × CommandReply} (ha : a ∈ answers effects) :
    Placed offered a.2.slot a.1 := by
  obtain ⟨x, hx, hanswer⟩ := List.mem_filterMap.mp ha
  cases x with
  | reply q reply =>
    cases hanswer
    exact h.placed _ hx
  | _ => cases hanswer

/-- The requests are answered in order if the slots are executed in order. -/
theorem answers_eq (h : Ledger offered submitted hand effects r)
    (hslots : (executions effects).map Execution.slot =
      (List.range' 1 offered.length).map UInt64.ofNat) :
    answers effects = offered.zip ((executions effects).map Execution.reply) := by
  have hall : (answers effects).map (fun a => a.2.slot) =
      (List.range' 1 offered.length).map UInt64.ofNat := by
    have hreplies := congrArg (List.map CommandReply.slot) h.answered
    rw [List.map_map, List.map_map] at hreplies
    exact hreplies.trans hslots
  have hlength : (answers effects).length = offered.length := by
    simpa using congrArg List.length hall
  have hrequests : (answers effects).map Prod.fst = offered := by
    refine List.ext_getElem (by rw [List.length_map, hlength]) fun i hi hi' => ?_
    rw [List.length_map] at hi
    have hslot : (answers effects)[i].2.slot = UInt64.ofNat (1 + i) := by
      simpa [hi, hi'] using congrArg (·[i]?) hall
    have hplaced := h.placed_answer (List.getElem_mem hi)
    rw [hslot, h.placed_iff hi', List.getElem?_eq_getElem hi', Option.some_inj] at hplaced
    rw [List.getElem_map, ← hplaced]
  calc answers effects
      = ((answers effects).map Prod.fst).zip ((answers effects).map Prod.snd) := by
        rw [← List.unzip_fst, ← List.unzip_snd, List.zip_unzip]
    _ = offered.zip ((executions effects).map Execution.reply) := by
        rw [hrequests, h.answered]

/-- The requests that have their places were submitted. -/
theorem length_le (h : Ledger offered submitted hand effects r) :
    offered.length ≤ submitted.length := by
  rw [h.order, List.append_assoc, List.length_append]
  exact Nat.le_add_right _ _

/-- An undisturbed proposer is not stuck as long as it has rounds and slots. -/
theorem not_stuck [RandomSource ρ] {before : Replica ρ σ} {input : Input} {t : Turn ρ σ}
    {f : Fault} (h : Ledger offered submitted hand effects t.toReplica) (ht : Tidy t.toReplica)
    (hin : Undisturbed before input) (hround : before.ballot.round < maxCounter)
    (hfew : submitted.length < maxCounter.toNat) : ¬ Stuck before input t f := by
  have hslots := Nat.lt_of_le_of_lt h.length_le hfew
  intro hstuck
  cases hstuck with
  | round hi ha hb hlast =>
    rw [← hb, hlast] at hround
    exact absurd hround Std.lt_irrefl
  | slot ha hlast =>
    rw [← h.filled.highest, hlast] at hslots
    exact absurd hslots (Nat.lt_irrefl _)
  | cursor e hs hc hlast =>
    obtain ⟨q, hq, -⟩ := h.filled.entry _ e hs ht.first_le
    have hplace := hq.toNat_le
    rw [hlast] at hplace
    exact absurd hslots (Nat.not_lt.mpr hplace)
  | delay f hwhy hdelay => exact absurd hwhy hin.not_superseded

end Ledger

/-- The commands below the cursor if every slot there holds what is due. -/
theorem Log.applied_of_due {log : Log} {offered : List ClientRequest}
    (hcursor : log.executeCursor.toNat = offered.length + 1)
    (hdue : ∀ s, Slot.first ≤ s → s < log.executeCursor →
      ∃ e, log.get? s = some e ∧ Due offered s e.command) :
    log.applied = (offered.zipIdx 1).map fun (q, i) => (UInt64.ofNat i, q.command) := by
  have hlt := log.executeCursor.toNat_lt
  rw [applied, Slot.below, hcursor, Nat.add_sub_cancel, List.filterMap_map]
  refine filterMap_range'_eq_zipIdx fun i q hq => ?_
  have hi := (List.getElem?_eq_some_iff.mp hq).1
  have hslot : (UInt64.ofNat (1 + i)).toNat = 1 + i :=
    UInt64.toNat_ofNat_of_lt' (by simp only [UInt64.size]; omega)
  have hfirst : Slot.first ≤ UInt64.ofNat (1 + i) :=
    UInt64.le_iff_toNat_le.mpr (by rw [hslot]; exact Nat.le_add_right 1 i)
  obtain ⟨e, he, q', ⟨-, hq'⟩, hcmd⟩ :=
    hdue (UInt64.ofNat (1 + i)) hfirst (UInt64.lt_iff_toNat_lt.mpr (by omega))
  rw [hslot, Nat.add_sub_cancel_left, hq, Option.some_inj] at hq'
  subst hq'
  rw [Function.comp_apply, payloadAt, he, Option.bind_some, hcmd]
  rfl

namespace Network

variable {fresh net : Network ρ σ} {p q : ReplicaId} {offered : List ClientRequest}

/-- All requests submitted to `p` were carried out in order. -/
structure CarriedOut [StateMachine σ] (fresh net : Network ρ σ) (p : ReplicaId) : Prop where
  /-- Every member executed the commands submitted, the `i`-th one at slot `i`. -/
  executed : ∀ q ∈ net.members, (executions (net.effectsOf q)).map (fun x => (x.slot, x.command)) =
    ((net.submittedTo p).zipIdx 1).map fun (r, i) => (UInt64.ofNat i, r.command)
  /-- Its state machine gave the results of running them one after another. -/
  results : ∀ q ∈ net.members,
    StateMachine.run ((net.submittedTo p).map ClientRequest.command) (fresh.replica q).machine =
      ((executions (net.effectsOf q)).map Execution.value, (net.replica q).machine)
  /-- The `i`-th request was answered with the `i`-th execution. -/
  answered : answers (net.effectsOf p) =
    (net.submittedTo p).zip ((executions (net.effectsOf p)).map Execution.reply)
  /-- No two of these slots are the same. -/
  few : (net.submittedTo p).length < maxCounter.toNat

variable [RandomSource ρ] [StateMachine σ] {spec : QuorumSpec}

namespace Solo

omit [RandomSource ρ] [StateMachine σ] in
theorem submitted_eq (h : Solo net p offered) (hp : (net.replica p).pending = []) :
    net.submittedTo p = offered := by
  rw [h.ledger.order, hp, List.append_nil, List.append_nil]

/-- In a quiet cluster the proposer has nothing left to do. -/
theorem settled (h : Solo net p offered) (hr : Reachable spec net) (hp : p ∈ net.members)
    (hquiet : net.Quiet) : (net.replica p).pending = [] ∧
      ∀ s e, (net.replica p).log.get? s = some e → e.isCommitted = true := by
  have hsound := hr.view (sound spec)
  have htidy : Tidy (net.replica p) := hsound.orderly.tidy p hp
  by_cases hopened : net.opened = []
  · -- no election was started, so nothing was submitted
    have hzero : (net.replica p).ballot = .zero := by
      rcases (hr.view (heralded spec)).2.held p hp with hzero | hd
      · exact hzero
      · have hmem := mem_opened.mpr hd
        rw [hopened] at hmem
        cases hmem
    have howner : (net.replica p).ballot.owner = none := by rw [hzero]; rfl
    have hidle : (net.replica p).hasOutstandingWork = false := by
      rw [← Bool.not_eq_true]
      intro hwork
      rcases (hr.rested hp).armed hwork with hown | hflight
      · rw [howner] at hown; cases hown
      · exact absurd ((hquiet.not_inFlight hr hp).symm.trans hflight) (by simp)
    have hinactive : (net.replica p).active = false := Bool.eq_false_iff.mpr fun hact => by
      have hown := (htidy.lead hact).1
      rw [howner] at hown
      cases hown
    refine ⟨(idle_of_not_outstanding htidy hidle).1, fun s e he => ?_⟩
    rw [← Bool.not_eq_false]
    intro hc
    obtain ⟨r, ⟨-, hplace⟩, -⟩ := h.ledger.due htidy he hc
    rw [h.ledger.waiting hinactive] at hplace
    cases hplace
  · obtain ⟨p', hp', hsettled⟩ := settled_of_quiet hr hquiet hopened
    obtain ⟨q, i, k, hd⟩ := mem_opened.mp hsettled.opened
    obtain ⟨rfl, -⟩ := h.broadcast hr hd
    have howner := (hsound.backing.opened q i _ k hd).1
    rw [hsettled.owner, Option.some_inj] at howner
    subst howner
    exact ⟨hsettled.drained _ hp, hsettled.chosen⟩

/-- In a quiet cluster everybody holds all requests as chosen. -/
theorem chosen (h : Solo net p offered) (hr : Reachable spec net) (hp : p ∈ net.members)
    (hquiet : net.Quiet) (hq : q ∈ net.members) {s : Slot} (hfirst : Slot.first ≤ s)
    (hs : s.toNat ≤ offered.length) :
    ∃ e, (net.replica q).log.get? s = some e ∧ e.isCommitted = true := by
  obtain ⟨e, he⟩ := h.ledger.filled.full s
    (UInt64.le_iff_toNat_le.mpr (h.ledger.filled.highest ▸ hs))
  have hc := (h.settled hr hp hquiet).2 s e he
  by_cases hqp : q = p
  · subst hqp
    exact ⟨e, he, hc⟩
  · -- the proposer announced it, which has reached everybody
    rcases (hr.view (choosing spec)).2.entry p hp s e he hc with rfl | ⟨a, i, b, hd⟩
    · exact absurd hfirst (by decide)
    · obtain ⟨rfl, -⟩ := h.broadcast hr hd
      obtain ⟨o, ho, rfl, -, hx⟩ := hd
      have hsends : o.Sends q (.commit ⟨b, s, e.command⟩) := .inr ⟨hqp, hx⟩
      obtain ⟨d, -, rfl, hi, net₁, htaken, -, hsteps⟩ := hquiet.delivery hr ho hq hsends
      obtain ⟨now, hstep⟩ := htaken.step
      rw [hi] at hstep
      obtain ⟨e', he', hc'⟩ := chosen_of_step hfirst hstep
      rw [← net₁.replica_record_self d] at he'
      obtain ⟨e'', he'', hc'', -⟩ := hsteps.still_chosen htaken.next he' hc'
      exact ⟨e'', he'', hc''⟩

/-- In a quiet cluster every cursor stands after the last request. -/
theorem cursor (h : Solo net p offered) (hr : Reachable spec net) (hp : p ∈ net.members)
    (hquiet : net.Quiet) (hq : q ∈ net.members) :
    (net.replica q).log.executeCursor.toNat = offered.length + 1 := by
  have htidy : Tidy (net.replica q) := (hr.view (sound spec)).orderly.tidy q hq
  have hfirst : 1 ≤ (net.replica q).log.executeCursor.toNat :=
    UInt64.le_iff_toNat_le.mp htidy.first_le
  refine Nat.le_antisymm (Nat.le_of_not_lt fun hlt => ?_) (Nat.lt_of_not_le fun hle => ?_)
  · -- whatever the cursor has passed has its place
    have hbound := (net.replica q).log.executeCursor.toNat_lt
    have hslot : (UInt64.ofNat (offered.length + 1)).toNat = offered.length + 1 :=
      UInt64.toNat_ofNat_of_lt' (by simp only [UInt64.size]; omega)
    have hpassed : Slot.first ≤ UInt64.ofNat (offered.length + 1) :=
      UInt64.le_iff_toNat_le.mpr (by rw [hslot]; exact Nat.le_add_left 1 _)
    obtain ⟨e, he, hc⟩ := htidy.done (UInt64.ofNat (offered.length + 1))
      (UInt64.lt_iff_toNat_lt.mpr (by rw [hslot]; exact hlt))
    obtain ⟨r, hplace, -⟩ := h.due_of_chosen hr hq hpassed he hc
    have hle := hplace.toNat_le
    omega
  · -- and nothing that has its place waits at the cursor
    obtain ⟨e, he, hc⟩ := h.chosen hr hp hquiet hq htidy.first_le hle
    exact absurd (hc.symm.trans ((hr.rested hq).idle e he)) (by simp)

/-- In a quiet cluster all requests were carried out. -/
theorem carriedOut (h : Solo net p offered) (hf : Fresh spec fresh) (hs : Steps fresh net)
    (hp : p ∈ net.members) (hquiet : net.Quiet) : CarriedOut fresh net p := by
  have hr : Reachable spec net := ⟨fresh, hf, hs⟩
  have hexecuted : ∀ q ∈ net.members,
      Executed (fresh.replica q).machine (net.effectsOf q) (net.replica q) :=
    fun q hq => hf.executed hs (hs.members ▸ hq)
  have hslots : ∀ q ∈ net.members,
      (executions (net.effectsOf q)).map (fun x => (x.slot, x.command)) =
        (offered.zipIdx 1).map fun (r, i) => (UInt64.ofNat i, r.command) := by
    intro q hq
    rw [(hexecuted q hq).applied]
    refine Log.applied_of_due (h.cursor hr hp hquiet hq) fun s hfirst hlt => ?_
    obtain ⟨e, he, hc⟩ := ((hr.view (sound spec)).orderly.tidy q hq).done s hlt
    exact ⟨e, he, h.due_of_chosen hr hq hfirst he hc⟩
  rw [← h.submitted_eq (h.settled hr hp hquiet).1] at hslots h
  refine ⟨hslots, fun q hq => ?_, h.ledger.answers_eq ?_, ?_⟩
  · have hcommands := congrArg (List.map Prod.snd) (hslots q hq)
    rw [List.map_map, List.map_map] at hcommands
    have hsubmitted : (executions (net.effectsOf q)).map Execution.command =
        (net.submittedTo p).map ClientRequest.command := by
      calc (executions (net.effectsOf q)).map Execution.command
          = ((net.submittedTo p).zipIdx 1).map (ClientRequest.command ∘ Prod.fst) := hcommands
        _ = (net.submittedTo p).map ClientRequest.command := by
            rw [← List.map_map, List.zipIdx_map_fst]
    rw [← hsubmitted]
    exact (hexecuted q hq).results
  · have hplaces := congrArg (List.map Prod.fst) (hslots p hp)
    rw [List.map_map, List.map_map] at hplaces
    calc (executions (net.effectsOf p)).map Execution.slot
        = ((net.submittedTo p).zipIdx 1).map (UInt64.ofNat ∘ Prod.snd) := hplaces
      _ = (List.range' 1 (net.submittedTo p).length).map UInt64.ofNat := by
          rw [← List.map_map, List.zipIdx_map_snd]
  · have hcursor := h.cursor hr hp hquiet hp
    have hlt := (net.replica p).log.executeCursor.toNat_lt
    show _ < 2 ^ 64 - 1
    omega

/-- A follower is not stuck as long as the proposer has slots. -/
theorem not_stuck (h : Solo net p offered) (hr : Reachable spec net) (hq : q ∈ net.members)
    (hne : q ≠ p) {input : Input} (hpos : net.Possible q input) (hin : input.From p)
    (hfew : offered.length < maxCounter.toNat) {now : Duration} {t : Turn ρ σ} {f : Fault}
    (hmoves : Moves (net.replica q) input { net.replica q with now, effects := [] } t) :
    ¬ Stuck (net.replica q) input t f := by
  have horderly := (hr.view (sound spec)).orderly
  have htidy : Tidy (net.replica q) := horderly.tidy q hq
  have hid : (net.replica q).id = q := horderly.id q hq
  obtain ⟨hfollower, hreports⟩ := (h.follower q hq hne).of_moves (by rwa [hid]) hin hmoves
  intro hstuck
  cases hstuck with
  | round hi ha hb hlast =>
    obtain ⟨m, hm⟩ := hin.exists_message
    exact absurd hm (hi m)
  | slot ha hlast => exact absurd (hfollower.inactive.symm.trans ha) (by simp)
  | cursor e hs hc hlast =>
    have hfirst := (htidy.moves hmoves).first_le
    have hhere : (net.amid q input t).replica q = t.toReplica :=
      net.replica_record_self ⟨q, input, net.replica q, t.toReplica, t.effects⟩
    have he : ((net.amid q input t).replica q).log.get? t.log.executeCursor = some e :=
      hhere ▸ hs
    rcases (hr.amid (choosing spec) hq hpos hmoves).2.entry q hq _ e he hc with
      hzero | ⟨q', i, b, hd⟩
    · rw [hzero] at hfirst
      exact absurd hfirst (by decide)
    · rcases did_amid.mp hd with hd | ⟨-, -, hx⟩
      · obtain ⟨r, hplace, -⟩ := h.due_of_announced hr ⟨q', i, b, hd⟩
        have hle := hplace.toNat_le
        rw [hlast] at hle
        exact absurd hfew (Nat.not_lt.mpr hle)
      · exact hreports _ hx
  | delay f hwhy hdelay => exact absurd hwhy (hfollower.not_superseded hin)

/-- With rounds and slots left no step of a member fails. -/
theorem not_fault (h : Solo net p offered) (hr : Reachable spec net) (hp : p ∈ net.members)
    (hq : q ∈ net.members) {input : Input} (hpos : net.Possible q input)
    (hsole : q ≠ p → input.requests = [] ∧ input ≠ .elect)
    (hround : (net.replica p).ballot.round < maxCounter)
    (hfew : (net.submittedTo p ++ input.requests).length < maxCounter.toNat) {now : Duration}
    {f : Fault} : (net.replica q).step now input ≠ .error f := by
  have htidy : Tidy (net.replica q) := (hr.view (sound spec)).orderly.tidy q hq
  intro hfault
  obtain ⟨c, hcarries, hstuck⟩ := stops_of_step htidy hfault
  have ht := htidy.moves hcarries.moves
  by_cases hqp : q = p
  · subst hqp
    have hin := h.undisturbed hr hpos
    obtain ⟨offered', hledger⟩ :=
      h.ledger.of_carries hin htidy (hr.rested hq).drained hcarries
    exact hledger.not_stuck ht hin hround hfew hstuck
  · obtain ⟨hrequest, helect⟩ := hsole hqp
    have hslots : offered.length < maxCounter.toNat := by
      refine Nat.lt_of_le_of_lt h.ledger.length_le ?_
      rwa [hrequest, List.append_nil] at hfew
    exact h.not_stuck hr hq hqp hpos (h.input_from hr hqp hpos hrequest helect) hslots
      hcarries.moves hstuck

end Solo

/-- **A single proposer replicates everything in order.** In every run of a cluster of any size,
with any accepted quorums, in which requests and calls for an election come to `p` only: nobody ever
asks for a delay or hands a request back; whenever no message is under way, all requests submitted
have been carried out in order; and no member fails as long as the rounds of `p` last and the
requests leave slots over. -/
theorem replicated_in_order (hf : Fresh spec fresh) (hs : Steps fresh net) (hp : p ∈ net.members)
    (hsole : net.SoleProposer p) :
    (∀ o ∈ net.past, ∀ x ∈ o.effects, x.isAlarm = false ∧ ∀ r, x ≠ .retry r) ∧
    ((∀ q ∈ net.members, underWay q net.past = []) → CarriedOut fresh net p) ∧
    ∀ q ∈ net.members, ∀ input, net.Possible q input →
      (q ≠ p → input.requests = [] ∧ input ≠ .elect) →
      (net.replica p).ballot.round < maxCounter →
      (net.submittedTo p ++ input.requests).length < maxCounter.toNat →
      ∀ now, ∃ after effects, (net.replica q).step now input = .ok (after, effects) := by
  have hr : Reachable spec net := ⟨fresh, hf, hs⟩
  obtain ⟨offered, hsolo⟩ := hr.solo hp hsole
  refine ⟨fun o ho x hx => hsolo.no_alarm hr ho hx, fun hdelivered => ?_, ?_⟩
  · exact hsolo.carriedOut hf hs hp ⟨hdelivered, fun q _ => hsolo.not_possible_backoffElapsed hr⟩
  · intro q hq input hpos hothers hround hfew now
    cases hstep : (net.replica q).step now input with
    | error f => exact absurd hstep (hsolo.not_fault hr hp hq hpos hothers hround hfew)
    | ok result => exact ⟨result.1, result.2, rfl⟩

/-- Replica 1 takes a request before it is elected, one that has to wait for the election, and one
after it. Replica 3 hears of the second one before it is asked for a promise, and replica 2 that it
is chosen before it is asked for a vote. A promise arrives twice. -/
def soleProposal : List (ReplicaId × Input) :=
  [(1, .request ⟨0, [65]⟩), (1, .request ⟨1, [66]⟩), (2, .message (.prepare ⟨⟨1, some 1⟩, 1⟩)),
    (1, .message (.promise ⟨⟨1, some 1⟩, 2, ∅⟩)), (1, .request ⟨2, [67]⟩),
    (3, .message (.accept ⟨⟨1, some 1⟩, 2, .client [66]⟩)),
    (1, .message (.accepted ⟨⟨1, some 1⟩, 2, 3⟩)),
    (2, .message (.commit ⟨⟨1, some 1⟩, 2, .client [66]⟩)),
    (2, .message (.accept ⟨⟨1, some 1⟩, 1, .client [65]⟩)),
    (1, .message (.accepted ⟨⟨1, some 1⟩, 1, 2⟩)),
    (3, .message (.prepare ⟨⟨1, some 1⟩, 1⟩)), (1, .message (.promise ⟨⟨1, some 1⟩, 2, ∅⟩)),
    (1, .message (.promise ⟨⟨1, some 1⟩, 3, .ofPairs [(2, ⟨.client [66], ⟨1, some 1⟩, false⟩)]⟩)),
    (3, .message (.commit ⟨⟨1, some 1⟩, 1, .client [65]⟩)),
    (3, .message (.accept ⟨⟨1, some 1⟩, 1, .client [65]⟩)),
    (1, .message (.accepted ⟨⟨1, some 1⟩, 1, 3⟩)),
    (2, .message (.accept ⟨⟨1, some 1⟩, 3, .client [67]⟩)),
    (2, .message (.accept ⟨⟨1, some 1⟩, 2, .client [66]⟩)),
    (1, .message (.accepted ⟨⟨1, some 1⟩, 2, 2⟩)),
    (2, .message (.commit ⟨⟨1, some 1⟩, 1, .client [65]⟩)),
    (3, .message (.commit ⟨⟨1, some 1⟩, 2, .client [66]⟩)),
    (1, .message (.accepted ⟨⟨1, some 1⟩, 3, 2⟩)),
    (2, .message (.commit ⟨⟨1, some 1⟩, 3, .client [67]⟩)),
    (3, .message (.accept ⟨⟨1, some 1⟩, 3, .client [67]⟩)),
    (1, .message (.accepted ⟨⟨1, some 1⟩, 3, 3⟩)),
    (3, .message (.commit ⟨⟨1, some 1⟩, 3, .client [67]⟩))]

/-- At the end of `soleProposal` the three requests have been carried out, and a fourth can be
submitted. -/
theorem replicated_in_order_trio : ∃ net : Network Script Journal, Steps trio net ∧
    (∀ o ∈ net.past, ∀ x ∈ o.effects, x.isAlarm = false ∧ ∀ r, x ≠ .retry r) ∧
    net.submittedTo 1 = [⟨0, [65]⟩, ⟨1, [66]⟩, ⟨2, [67]⟩] ∧ CarriedOut trio net 1 ∧
    ∃ after effects,
      (net.replica 1).step .zero (.request ⟨3, [68]⟩) = .ok (after, effects) := by
  obtain ⟨net, hs, hp, hsole, hquiet, hsubmitted, hpos, hround⟩ :=
    trio.exists_of_play soleProposal (fun net =>
      1 ∈ net.members ∧ net.SoleProposer 1 ∧ net.Quiet ∧
      net.submittedTo 1 = [⟨0, [65]⟩, ⟨1, [66]⟩, ⟨2, [67]⟩] ∧
      net.Possible 1 (.request ⟨3, [68]⟩) ∧ (net.replica 1).ballot.round = 1) (by decide +kernel)
  obtain ⟨hcalm, hcarried, hprogress⟩ := replicated_in_order fresh_trio hs hp hsole
  refine ⟨net, hs, hcalm, hsubmitted, hcarried hquiet.delivered, ?_⟩
  refine hprogress 1 hp (.request ⟨3, [68]⟩) hpos (fun hne => absurd rfl hne) ?_ ?_ .zero
  · rw [hround]
    decide
  · rw [hsubmitted]
    decide

end Network

end PaxosLog
