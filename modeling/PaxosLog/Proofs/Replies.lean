import PaxosLog.Proofs.Network.Member

/-!
# Places of requests in the order

A reply tells a client at which slot its command was executed. An entry that is replaced by one
with the same command keeps its request, so an execution can answer a request that was proposed
elsewhere for another one with the same bytes.

* **`replies_in_order`**: two requests answered from one slot have the same bytes and were answered
  by different members; and a request that was submitted after the reply to another one is answered
  from a higher slot, unless its bytes had been submitted before with yet another request and
  executed by then at the slot that it is answered from.
* `replies_shared`: a run in which two requests are answered from one slot.
-/

namespace PaxosLog.Network

variable {ρ σ : Type} {spec : QuorumSpec} {net : Network ρ σ}

/-- No two members hold different commands as chosen for one slot. -/
def Agreeing (net : Network ρ σ) : Prop :=
  ∀ p ∈ net.members, ∀ q ∈ net.members, ∀ s e e',
    (net.replica p).log.get? s = some e → (net.replica q).log.get? s = some e' →
    e.isCommitted = true → e'.isCommitted = true → e.command = e'.command

variable [RandomSource ρ] [StateMachine σ]

/-- A reply is about a slot that the member holds as chosen, and has passed, for the command of the
request. -/
theorem Reachable.replied (hr : Reachable spec net) {o : Occurrence ρ σ} (ho : o ∈ net.past)
    {q : ClientRequest} {reply : CommandReply} (hx : .reply q reply ∈ o.effects) :
    o.id ∈ net.members ∧ Slot.first ≤ reply.slot ∧
      reply.slot < (net.replica o.id).log.executeCursor ∧
      ∃ e, (net.replica o.id).log.get? reply.slot = some e ∧ e.isCommitted = true ∧
        e.command = .client q.command := by
  have hmember : o.id ∈ net.members :=
    (hr.view (PaxosLog.sound spec)).orderly.member o.id o.input _ ⟨o, ho, rfl, rfl, hx⟩
  obtain ⟨n, config, source, machine, fresh, hstart, hrun⟩ := hr.run o.id hmember
  have hf := Tidy.start hstart
  have hmem : (q, reply) ∈ answers (net.effectsOf o.id) :=
    List.mem_filterMap.mpr ⟨_, mem_effectsOf.mpr ⟨o, ho, rfl, hx⟩, rfl⟩
  obtain ⟨-, hexec, hchosen⟩ := (Answered.of_run hf hrun).sound q reply hmem
  obtain ⟨hfirst, hlt⟩ := (Executed.of_run hf (.start hstart) hrun).slot_lt hexec
  exact ⟨hmember, hfirst, hlt, hchosen⟩

/-- A member answers one request from a slot. -/
theorem Reachable.reply_unique (hr : Reachable spec net) {o o' : Occurrence ρ σ}
    (ho : o ∈ net.past) (ho' : o' ∈ net.past) (hid : o.id = o'.id) {q q' : ClientRequest}
    {reply reply' : CommandReply} (hx : .reply q reply ∈ o.effects)
    (hx' : .reply q' reply' ∈ o'.effects) (hslot : reply.slot = reply'.slot) : q = q' := by
  obtain ⟨hmember, -⟩ := hr.replied ho hx
  obtain ⟨n, config, source, machine, fresh, hstart, hrun⟩ := hr.run o.id hmember
  have hf := Tidy.start hstart
  have hans := Answered.of_run hf hrun
  have hnodup := (Executed.of_run hf (.start hstart) hrun).nodup.sublist hans.once
  have hmem : (q, reply) ∈ answers (net.effectsOf o.id) :=
    List.mem_filterMap.mpr ⟨_, mem_effectsOf.mpr ⟨o, ho, rfl, hx⟩, rfl⟩
  have hmem' : (q', reply') ∈ answers (net.effectsOf o.id) :=
    List.mem_filterMap.mpr ⟨_, mem_effectsOf.mpr ⟨o', ho', hid.symm, hx'⟩, rfl⟩
  exact congrArg Prod.fst (List.inj_on_of_nodup_map hnodup hmem hmem' hslot)

/-- A reply comes in the step in which its slot is executed. -/
theorem Taken.run_of_reply {o : Occurrence ρ σ} (h : Taken spec net o) {q : ClientRequest}
    {reply : CommandReply} (hx : .reply q reply ∈ o.effects) :
    ∃ x ∈ executions o.effects, x.slot = reply.slot := by
  obtain ⟨now, hstep⟩ := h.step
  have htidy : Tidy o.before := h.before ▸ h.sound.orderly.tidy o.id h.member
  have hrun : o.before.Run [o.input] o.after o.effects := Replica.Run.start.step now o.input hstep
  have hmem : (q, reply) ∈ answers o.effects := List.mem_filterMap.mpr ⟨_, hx, rfl⟩
  exact ⟨_, ((Answered.of_run htidy hrun).sound q reply hmem).2.1, rfl⟩

/-- Only what was submitted is answered. -/
theorem Reachable.submitted_of_reply (hr : Reachable spec net) {o : Occurrence ρ σ}
    (ho : o ∈ net.past) {q : ClientRequest} {reply : CommandReply}
    (hx : .reply q reply ∈ o.effects) : ∃ a ∈ net.past, a.input = .request q := by
  obtain ⟨hmember, -⟩ := hr.replied ho hx
  obtain ⟨n, config, source, machine, fresh, hstart, hrun⟩ := hr.run o.id hmember
  have hmem : q ∈ answered (net.effectsOf o.id) :=
    List.mem_map.mpr ⟨(q, reply),
      List.mem_filterMap.mpr ⟨_, mem_effectsOf.mpr ⟨o, ho, rfl, hx⟩, rfl⟩, rfl⟩
  have hcount := Accounted.of_run hstart hrun q
  have hpos := List.count_pos_iff.mpr hmem
  have hsub : q ∈ (net.inputsOf o.id).flatMap Input.requests :=
    List.count_pos_iff.mp (by omega)
  obtain ⟨input, hinput, hq⟩ := List.mem_flatMap.mp hsub
  obtain ⟨a, ha, rfl⟩ := List.mem_map.mp hinput
  refine ⟨a, (List.mem_filter.mp (List.mem_reverse.mp ha)).1, ?_⟩
  cases hi : a.input with
  | request r => rw [hi] at hq; rw [List.mem_singleton.mp hq]
  | _ => rw [hi] at hq; cases hq

/-- A request that was submitted after member `o.id` had executed slot `s` is not answered from `s`
by this member. -/
theorem Reachable.other_member (hr : Reachable spec net) {later earlier : List (Occurrence ρ σ)}
    {o : Occurrence ρ σ} (hpast : net.past = later ++ o :: earlier) {s : Slot} {c v : Bytes}
    {a : Occurrence ρ σ} (ha : a ∈ o :: earlier) (hid : a.id = o.id)
    (hv : .execute s c v ∈ a.effects) {q : ClientRequest}
    (hnew : ∀ a ∈ o :: earlier, a.input ≠ .request q) {o' : Occurrence ρ σ} (ho' : o' ∈ net.past)
    {reply : CommandReply} (hx : .reply q reply ∈ o'.effects) (hslot : reply.slot = s) :
    o'.id ≠ o.id := by
  intro heq
  obtain ⟨net₀, htaken, rfl, hsteps⟩ := hr.split hpast
  have hr₁ := htaken.next
  rw [hpast] at ho'
  rcases List.mem_append.mp ho' with hlater | hearlier
  · obtain ⟨net₂, htaken'⟩ := hr.taken (hpast ▸ ho')
    obtain ⟨x, hxs, hxslot⟩ := htaken'.run_of_reply hx
    obtain ⟨y, hy, hexec⟩ := List.mem_filterMap.mp hxs
    obtain ⟨n, config, source, machine, fresh, hstart, hrun⟩ :=
      hr.run o.id (hsteps.members ▸ htaken.member)
    -- the slot would be executed twice: up to `o`, and after it
    have hnodup := (Executed.of_run (Tidy.start hstart) (.start hstart) hrun).nodup
    have heffects := effectsOf_append (t := net₀.record o) hpast o.id
    rw [heffects, executions_append, List.map_append] at hnodup
    refine (List.nodup_append.mp hnodup).2.2 s ?_ s ?_ rfl
    · exact List.mem_map.mpr ⟨⟨s, c, v⟩,
        List.mem_filterMap.mpr ⟨_, mem_effectsOf.mpr ⟨a, ha, hid, hv⟩, rfl⟩, rfl⟩
    · refine List.mem_map.mpr ⟨x, List.mem_filterMap.mpr ⟨y, ?_, hexec⟩, hxslot.trans hslot⟩
      exact List.mem_flatMap.mpr ⟨o', List.mem_reverse.mpr (List.mem_filter.mpr
        ⟨hlater, by simpa using heq⟩), hy⟩
  · obtain ⟨a, ha, hi⟩ := hr₁.submitted_of_reply hearlier hx
    exact hnew a ha hi

/-- A request answered from a slot that another member had passed before: its bytes had been
submitted by then, and run by that member at that slot. -/
theorem Reachable.run_before (hr : Reachable spec net) (hagree : net.Agreeing)
    {later earlier : List (Occurrence ρ σ)} {o : Occurrence ρ σ}
    (hpast : net.past = later ++ o :: earlier) {q q' : ClientRequest} {reply reply' : CommandReply}
    (hx : .reply q reply ∈ o.effects) {o' : Occurrence ρ σ} (ho' : o' ∈ net.past)
    (hx' : .reply q' reply' ∈ o'.effects) (hle : reply'.slot ≤ reply.slot) :
    (∃ d : ClientRequest, d.command = q'.command ∧ ∃ a ∈ o :: earlier, a.input = .request d) ∧
      ∃ a ∈ o :: earlier, a.id = o.id ∧ ∃ v, .execute reply'.slot q'.command v ∈ a.effects := by
  obtain ⟨net₀, htaken, rfl, hsteps⟩ := hr.split hpast
  have hr₁ := htaken.next
  obtain ⟨hmember, -, hlt, -⟩ := hr₁.replied (List.mem_cons_self (a := o)) hx
  obtain ⟨hmember', hfirst, -, e', he', hc', hcmd'⟩ := hr.replied ho' hx'
  -- the member has passed the slot, and still holds what it then held there
  have hpassed := Std.lt_of_le_of_lt hle hlt
  have htidy := (hr₁.view (PaxosLog.sound spec)).orderly.tidy o.id hmember
  obtain ⟨e, he, hc⟩ := htidy.done reply'.slot hpassed
  obtain ⟨e₁, he₁, hc₁, hcmd₁⟩ := hsteps.still_chosen hr₁ he hc
  have hlater : o.id ∈ net.members := hsteps.members ▸ hmember
  have hcmd : e.command = .client q'.command := by
    rw [← hcmd₁, hagree o.id hlater o'.id hmember' _ e₁ e' he₁ he' hc₁ hc', hcmd']
  refine ⟨?_, ?_⟩
  · rcases (hr₁.sourced.1 o.id hmember).log _ e he with hnoop | ⟨d, hd, a, ha, hi⟩
    · rw [hcmd] at hnoop; cases hnoop
    · rw [hcmd] at hd
      exact ⟨d, (Command.client.inj hd).symm, a, ha, hi⟩
  · obtain ⟨n, config, source, machine, fresh, hstart, hrun⟩ := hr₁.run o.id hmember
    have hexecuted := Executed.of_run (Tidy.start hstart) (.start hstart) hrun
    obtain ⟨v, hv⟩ := hexecuted.exists_of_lt hfirst hpassed he hcmd
    obtain ⟨a, ha, hid, hva⟩ := mem_effectsOf.mp hv
    exact ⟨a, ha, hid, v, hva⟩

/-- **Places of requests in the order.** In every run in which no two members hold different
commands as chosen for one slot: distinct requests that are answered from one slot have the same
bytes and were answered by different members. If a request was answered before another one was
first submitted anywhere, the other one, if answered, is answered from a higher slot, or else by
another member, for bytes that had been submitted by then with a different request, from a slot
that the member that gave the earlier answer had by then executed with these bytes. -/
theorem replies_in_order (hr : Reachable spec net) (hagree : net.Agreeing) :
    (∀ o ∈ net.past, ∀ o' ∈ net.past, ∀ q q' reply reply',
      .reply q reply ∈ o.effects → .reply q' reply' ∈ o'.effects → q ≠ q' →
      reply.slot = reply'.slot → q.command = q'.command ∧ o.id ≠ o'.id) ∧
    ∀ later o earlier, net.past = later ++ o :: earlier → ∀ q reply, .reply q reply ∈ o.effects →
      ∀ q', (∀ a ∈ o :: earlier, a.input ≠ .request q') →
      ∀ o' ∈ net.past, ∀ reply', .reply q' reply' ∈ o'.effects →
        reply.slot < reply'.slot ∨
          o'.id ≠ o.id ∧
          (∃ d, d ≠ q' ∧ d.command = q'.command ∧ ∃ a ∈ o :: earlier, a.input = .request d) ∧
          ∃ a ∈ o :: earlier, a.id = o.id ∧
            ∃ v, .execute reply'.slot q'.command v ∈ a.effects := by
  refine ⟨fun o ho o' ho' q q' reply reply' hx hx' hne hslot => ⟨?_, fun hid => ?_⟩, ?_⟩
  · obtain ⟨hmember, -, -, e, he, hc, hcmd⟩ := hr.replied ho hx
    obtain ⟨hmember', -, -, e', he', hc', hcmd'⟩ := hr.replied ho' hx'
    have heq := hagree _ hmember _ hmember' _ e e' he (hslot ▸ he') hc hc'
    rw [hcmd, hcmd'] at heq
    exact Command.client.inj heq
  · exact hne (hr.reply_unique ho ho' hid hx hx' hslot)
  · intro later o earlier hpast q reply hx q' hnew o' ho' reply' hx'
    by_cases hle : reply'.slot ≤ reply.slot
    · obtain ⟨⟨d, hd, a, ha, hi⟩, a', ha', hid, v, hv⟩ :=
        hr.run_before hagree hpast hx ho' hx' hle
      exact .inr ⟨hr.other_member hpast ha' hid hv hnew ho' hx' rfl,
        ⟨d, fun heq => hnew a ha (heq ▸ hi), hd, a, ha, hi⟩, a', ha', hid, v, hv⟩
    · exact .inl (Std.not_le.mp hle)

/-! ## A shared answer -/

/-- Replica 1 is elected by replica 2, which then elects replica 3. Replica 3 has the bytes of a
request chosen at slot 1 and answers it. Then replica 1, which has not heard of all this, takes a
request with the same bytes, proposes it at slot 1, and learns that they were chosen there. -/
def sharedAnswer : List (ReplicaId × Input) :=
  [(1, .elect), (2, .message (.prepare ⟨⟨1, some 1⟩, 1⟩)),
    (1, .message (.promise ⟨⟨1, some 1⟩, 2, ∅⟩)),
    (3, .elect), (2, .message (.prepare ⟨⟨1, some 3⟩, 1⟩)),
    (3, .message (.promise ⟨⟨1, some 3⟩, 2, ∅⟩)), (3, .request ⟨0, [65]⟩),
    (2, .message (.accept ⟨⟨1, some 3⟩, 1, .client [65]⟩)),
    (3, .message (.accepted ⟨⟨1, some 3⟩, 1, 2⟩)), (1, .request ⟨1, [65]⟩),
    (1, .message (.commit ⟨⟨1, some 3⟩, 1, .client [65]⟩))]

omit [RandomSource ρ] [StateMachine σ] in
/-- Members agree if what they hold as chosen is given by one function of the slots. -/
theorem agreeing_of_entries (command : Slot → Command)
    (h : ∀ x ∈ net.members.flatMap fun p => (net.replica p).log.entries.toList,
      x.2.isCommitted = true → x.2.command = command x.1) : net.Agreeing := by
  have hget : ∀ p ∈ net.members, ∀ s e, (net.replica p).log.get? s = some e →
      e.isCommitted = true → e.command = command s := by
    intro p hp s e he hc
    have hmem := Std.ExtTreeMap.mem_toList_iff_getElem?_eq_some.mpr he
    exact h (s, e) (List.mem_flatMap.mpr ⟨p, hp, hmem⟩) hc
  intro p hp q hq s e e' he he' hc hc'
  exact (hget p hp s e he hc).trans (hget q hq s e' he' hc').symm

/-- At the end of `sharedAnswer` the members agree, and replicas 3 and 1 have answered a request
each, the second of which came in after the first answer. -/
theorem exists_sharedAnswer : ∃ net : Network Script Journal, Reachable .three net ∧
    net.Agreeing ∧ ∃ later o earlier o', net.past = later ++ o :: earlier ∧
      .reply ⟨0, [65]⟩ ⟨1, [65], Decimal.bytes 1⟩ ∈ o.effects ∧
      (∀ a ∈ o :: earlier, a.input ≠ .request ⟨1, [65]⟩) ∧
      o' ∈ net.past ∧ .reply ⟨1, [65]⟩ ⟨1, [65], Decimal.bytes 1⟩ ∈ o'.effects := by
  obtain ⟨net, hs, hentries, ⟨o, ho, hx⟩, hnew, o', ho', hx'⟩ := trio.exists_of_play sharedAnswer
    (fun net =>
      (∀ x ∈ net.members.flatMap fun p => (net.replica p).log.entries.toList,
        x.2.isCommitted = true → x.2.command = if x.1 = 0 then .noop else .client [65]) ∧
      (∃ o ∈ (net.past.drop 2).head?,
        .reply ⟨0, [65]⟩ ⟨1, [65], Decimal.bytes 1⟩ ∈ o.effects) ∧
      (∀ a ∈ net.past.drop 2, a.input ≠ .request ⟨1, [65]⟩) ∧
      ∃ o' ∈ net.past, .reply ⟨1, [65]⟩ ⟨1, [65], Decimal.bytes 1⟩ ∈ o'.effects)
    (by decide +kernel)
  obtain ⟨earlier, hdrop⟩ := List.head?_eq_some_iff.mp ho
  refine ⟨net, ⟨trio, fresh_trio, hs⟩, agreeing_of_entries
    (fun s => if s = 0 then .noop else .client [65]) hentries, net.past.take 2, o, earlier, o', ?_,
    hx, hdrop ▸ hnew, ho', hx'⟩
  rw [← hdrop, List.take_append_drop]

/-- Both requests of `sharedAnswer` have the same bytes. -/
theorem replies_in_order_shared : ∃ net : Network Script Journal, Reachable .three net ∧
    net.Agreeing ∧ ∃ o ∈ net.past, ∃ o' ∈ net.past, ∃ q q' : ClientRequest, q ≠ q' ∧
      (∃ v, .reply q ⟨1, [65], v⟩ ∈ o.effects) ∧ (∃ v, .reply q' ⟨1, [65], v⟩ ∈ o'.effects) ∧
      q.command = q'.command ∧ o.id ≠ o'.id := by
  obtain ⟨net, hr, hagree, later, o, earlier, o', hpast, hx, -, ho', hx'⟩ := exists_sharedAnswer
  have ho : o ∈ net.past := by simp [hpast]
  have hne : (⟨0, [65]⟩ : ClientRequest) ≠ ⟨1, [65]⟩ := by decide
  exact ⟨net, hr, hagree, o, ho, o', ho', _, _, hne, ⟨_, hx⟩, ⟨_, hx'⟩,
    (replies_in_order hr hagree).1 o ho o' ho' _ _ _ _ hx hx' hne rfl⟩

/-- Distinct requests can be answered from one slot, although the members agree, and even if one
came in after the other was answered. -/
theorem replies_shared :
    (¬ ∀ net : Network Script Journal, Reachable .three net → net.Agreeing →
      ∀ o ∈ net.past, ∀ o' ∈ net.past, ∀ q q' reply reply',
        .reply q reply ∈ o.effects → .reply q' reply' ∈ o'.effects → q ≠ q' →
        reply.slot ≠ reply'.slot) ∧
    ¬ ∀ net : Network Script Journal, Reachable .three net → net.Agreeing →
      ∀ later o earlier, net.past = later ++ o :: earlier → ∀ q reply,
        .reply q reply ∈ o.effects → ∀ q', (∀ a ∈ o :: earlier, a.input ≠ .request q') →
        ∀ o' ∈ net.past, ∀ reply', .reply q' reply' ∈ o'.effects → reply.slot < reply'.slot := by
  obtain ⟨net, hr, hagree, later, o, earlier, o', hpast, hx, hnew, ho', hx'⟩ := exists_sharedAnswer
  refine ⟨fun hapart => ?_, fun hordered => ?_⟩
  · have ho : o ∈ net.past := by simp [hpast]
    exact hapart net hr hagree o ho o' ho' _ _ _ _ hx hx' (by decide) rfl
  · have hlt := hordered net hr hagree later o earlier hpast _ _ hx _ hnew o' ho' _ hx'
    exact absurd hlt Std.lt_irrefl

end PaxosLog.Network
