import PaxosLog.Proofs.Conservation
import PaxosLog.Proofs.Replica.Duty

/-!
# The ledger of an undisturbed proposer

A proposer is undisturbed as long as it hears nothing but answers to its own messages: no ballot
above its own, and, until it leads, no promise that reports anything (`Undisturbed`). Such a
proposer gives the slots from the first one on to the requests in the order in which it takes them.

`Ledger` says so of the middle of a step. Some of the requests submitted have been offered, the
others are in the queue or in hand, in this order; the log holds exactly the offered ones, each at
its place (`Log.Filled`); and what the replica sent and answered is about requests at their places.

**`Ledger.of_carries`**: the moves of an undisturbed step keep the ledger.
-/

namespace PaxosLog

/-! ## Places -/

/-- `q` has its place at slot `s` if the requests `offered` take the slots from the first one on. -/
def Placed (offered : List ClientRequest) (s : Slot) (q : ClientRequest) : Prop :=
  Slot.first ≤ s ∧ offered[s.toNat - 1]? = some q

namespace Placed

variable {offered : List ClientRequest} {s : Slot} {q : ClientRequest}

theorem append (h : Placed offered s q) (more : List ClientRequest) :
    Placed (offered ++ more) s q := by
  obtain ⟨hfirst, hq⟩ := h
  have hlt := (List.getElem?_eq_some_iff.mp hq).1
  exact ⟨hfirst, by rw [List.getElem?_append_left hlt, hq]⟩

theorem unique {q' : ClientRequest} (h : Placed offered s q) (h' : Placed offered s q') :
    q = q' :=
  Option.some_inj.mp (h.2.symm.trans h'.2)

theorem toNat_le (h : Placed offered s q) : s.toNat ≤ offered.length := by
  have hlt := (List.getElem?_eq_some_iff.mp h.2).1
  omega

/-- The last request has its place at the slot whose number is the number of requests. -/
theorem last (hs : s.toNat = offered.length + 1) : Placed (offered ++ [q]) s q := by
  refine ⟨UInt64.le_iff_toNat_le.mpr ?_, ?_⟩
  · show 1 ≤ s.toNat
    omega
  · rw [hs, Nat.add_sub_cancel, List.getElem?_concat_length]

end Placed

/-- The command at slot `s` is that of the request which has its place there. -/
def Due (offered : List ClientRequest) (s : Slot) (c : Command) : Prop :=
  ∃ q, Placed offered s q ∧ c = .client q.command

theorem Due.append {offered : List ClientRequest} {s : Slot} {c : Command} (h : Due offered s c)
    (more : List ClientRequest) : Due (offered ++ more) s c := by
  obtain ⟨q, hq, hc⟩ := h
  exact ⟨q, hq.append more, hc⟩

/-! ## The log -/

/-- The log holds the requests `offered`, each at its place and owned until it is executed, and
nothing else. -/
structure Log.Filled (log : Log) (offered : List ClientRequest) : Prop where
  highest : log.highestSlot.toNat = offered.length
  full : ∀ s, s ≤ log.highestSlot → ∃ e, log.get? s = some e
  entry : ∀ s e, log.get? s = some e → Slot.first ≤ s → ∃ q, Placed offered s q ∧
    e.command = .client q.command ∧ (log.executeCursor ≤ s → e.request = some q)

namespace Log.Filled

variable {log : Log} {offered : List ClientRequest}

theorem empty : Log.empty.Filled [] where
  highest := rfl
  full s hs := by
    have hzero : s = Slot.sentinel := by
      change s ≤ 0 at hs
      show s = 0
      grind
    exact ⟨_, by rw [get?_empty, if_pos hzero]⟩
  entry s e he hfirst := by
    rw [(of_get?_empty he).1] at hfirst
    exact absurd hfirst (by decide)

/-- An entry that changes neither its command nor its request. -/
theorem set (h : log.Filled offered) {s : Slot} {e₀ e : LogEntry} (hs : log.get? s = some e₀)
    (hc : e.command = e₀.command) (hr : e.request = e₀.request) : (log.set s e).Filled offered where
  highest := h.highest
  full t ht := by
    rw [get?_set]
    split
    · exact ⟨e, rfl⟩
    · exact h.full t ht
  entry t f hf hfirst := by
    rw [get?_set] at hf
    split at hf
    · rename_i hst
      cases hf
      subst hst
      rw [hc, hr]
      exact h.entry s e₀ hs hfirst
    · exact h.entry t f hf hfirst

/-- The next request is placed at the next slot. -/
theorem offer (h : log.Filled offered) {s : Slot} (hnext : log.highestSlot.next = .ok s)
    {q : ClientRequest} {e : LogEntry} (hc : e.command = .client q.command)
    (hr : e.request = some q) : ((log.observe s).set s e).Filled (offered ++ [q]) := by
  have hs := toNat_of_checkedSucc hnext
  have hhighest : ((log.observe s).set s e).highestSlot = s := by
    have hlt : log.highestSlot < s := by
      rw [UInt64.lt_iff_toNat_lt]
      omega
    rw [highestSlot_set, observe, if_pos hlt]
  refine ⟨?_, fun t ht => ?_, fun t f hf hfirst => ?_⟩
  · rw [hhighest, hs, h.highest, List.length_append, List.length_singleton]
  · rw [get?_set, get?_observe]
    split
    · exact ⟨e, rfl⟩
    · rename_i hne
      refine h.full t ?_
      rw [hhighest, UInt64.le_iff_toNat_le] at ht
      rw [← UInt64.toNat_inj] at hne
      rw [UInt64.le_iff_toNat_le]
      omega
  · rw [get?_set, get?_observe] at hf
    rw [executeCursor_set, executeCursor_observe]
    split at hf
    · rename_i hst
      cases hf
      subst hst
      exact ⟨q, .last (by rw [hs, h.highest]), hc, fun _ => hr⟩
    · obtain ⟨q', hq', hc', hr'⟩ := h.entry t f hf hfirst
      exact ⟨q', hq'.append [q], hc', hr'⟩

/-- An executed request is no longer owned. -/
theorem execute (h : log.Filled offered) {e : LogEntry} (he : log.get? log.executeCursor = some e)
    {cursor : Slot} (hnext : log.executeCursor.next = .ok cursor) :
    ({ log.set log.executeCursor e.withoutRequest with executeCursor := cursor } : Log).Filled
      offered where
  highest := h.highest
  full s hs := by
    change ∃ f, (log.set log.executeCursor e.withoutRequest).get? s = some f
    rw [get?_set]
    split
    · exact ⟨_, rfl⟩
    · exact h.full s hs
  entry s f hf hfirst := by
    change (log.set log.executeCursor e.withoutRequest).get? s = some f at hf
    change ∃ q, Placed offered s q ∧ f.command = .client q.command ∧ (cursor ≤ s → _)
    have hcur := toNat_of_checkedSucc hnext
    rw [get?_set] at hf
    split at hf
    · rename_i hst
      cases hf
      subst hst
      obtain ⟨q, hq, hc, -⟩ := h.entry _ e he hfirst
      refine ⟨q, hq, hc, fun hle => ?_⟩
      rw [UInt64.le_iff_toNat_le] at hle
      omega
    · obtain ⟨q, hq, hc, hr⟩ := h.entry s f hf hfirst
      refine ⟨q, hq, hc, fun hle => hr ?_⟩
      rw [UInt64.le_iff_toNat_le] at hle ⊢
      omega

/-- There is no gap up to the highest slot. -/
theorem get?_ne_none (h : log.Filled offered) {s : Slot} (hs : s ≤ log.highestSlot) :
    log.get? s ≠ none := by
  obtain ⟨e, he⟩ := h.full s hs
  simp [he]

end Log.Filled

/-! ## Messages and answers -/

/-- The effect is about requests at their places. -/
def Effect.InPlace (offered : List ClientRequest) : Effect → Prop
  | .broadcast (.prepare _) => True
  | .broadcast (.accept m) => Due offered m.slot m.command
  | .broadcast (.commit m) => Due offered m.slot m.command
  | .execute _ _ _ => True
  | .reply q answer => Placed offered answer.slot q
  | _ => False

theorem Effect.InPlace.append {offered : List ClientRequest} {x : Effect} (h : x.InPlace offered)
    (more : List ClientRequest) : x.InPlace (offered ++ more) := by
  cases x with
  | broadcast m =>
    cases m with
    | prepare m => trivial
    | accept m => exact Due.append h more
    | commit m => exact Due.append h more
    | _ => exact False.elim h
  | reply q answer => exact Placed.append h more
  | execute s c v => trivial
  | _ => exact False.elim h

/-- The reply that reports an execution. -/
def Execution.reply (x : Execution) : CommandReply := ⟨x.slot, x.command, x.value⟩

variable {ρ σ : Type}

/-- An input that comes from no competitor of `r`. -/
inductive Undisturbed (r : Replica ρ σ) : Input → Prop
  | request (q : ClientRequest) : Undisturbed r (.request q)
  | elect : Undisturbed r .elect
  | promise (m : Promise) (hle : m.ballot ≤ r.ballot)
      (hsilent : r.active = false → ∀ s e, m.log[s]? = some e → s = Slot.sentinel) :
      Undisturbed r (.message (.promise m))
  | accepted (m : Accepted) (hle : m.ballot ≤ r.ballot) : Undisturbed r (.message (.accepted m))

theorem Undisturbed.ballot_le {r : Replica ρ σ} {input : Input} (h : Undisturbed r input)
    {m : Message} (hi : input = .message m) : m.ballot ≤ r.ballot := by
  cases h with
  | promise m' hle hsilent => cases hi; exact hle
  | accepted m' hle => cases hi; exact hle
  | _ => cases hi

theorem Undisturbed.not_superseded {r : Replica ρ σ} {input : Input} (h : Undisturbed r input)
    {t : Turn ρ σ} : ¬ Superseded r input t := by
  rintro ⟨m, hi, hlt, -⟩
  exact Ballot.not_lt.mpr (h.ballot_le hi) hlt

/-- The requests submitted, the first of which, `offered`, have their places. -/
structure Ledger (offered submitted hand : List ClientRequest) (effects : List Effect)
    (r : Replica ρ σ) : Prop where
  order : submitted = offered ++ r.pending ++ hand
  filled : r.log.Filled offered
  placed : ∀ x ∈ effects, x.InPlace offered
  answered : (answers effects).map Prod.snd = (executions effects).map Execution.reply
  waiting : r.active = false → offered = []

namespace Ledger

variable {offered submitted hand : List ClientRequest} {effects : List Effect} {r r' : Replica ρ σ}

theorem start {id : ReplicaId} {n : Nat} {config : Config} {source : ρ} {machine : σ}
    (h : Replica.start id n config source machine = .ok r) : Ledger [] [] [] [] r := by
  obtain ⟨quorums, rfl⟩ := Replica.start_eq_ok h
  exact ⟨rfl, .empty, by simp, rfl, fun _ => rfl⟩

variable {before : Replica ρ σ} {input : Input} {t t' : Turn ρ σ} {prior : List Effect}

/-- A move that offers nothing and has no effects. -/
theorem silent (hl : Ledger offered submitted hand (prior ++ t.effects) t.toReplica)
    (heff : t'.effects = t.effects) (hp : t'.pending = t.pending) (hfilled : t'.log.Filled offered)
    (ha : t'.active = false → t.active = false) :
    Ledger offered submitted hand (prior ++ t'.effects) t'.toReplica where
  order := by rw [hp, hl.order]
  filled := hfilled
  placed := by rw [heff]; exact hl.placed
  answered := by rw [heff]; exact hl.answered
  waiting hinactive := hl.waiting (ha hinactive)

/-- A move that offers nothing and sends a message. -/
theorem emit (hl : Ledger offered submitted hand (prior ++ t.effects) t.toReplica) {m : Message}
    (heff : t'.effects = t.effects) (hp : t'.pending = t.pending) (hfilled : t'.log.Filled offered)
    (ha : t'.active = false → t.active = false) (hm : (Effect.broadcast m).InPlace offered) :
    Ledger offered submitted hand (prior ++ (t'.emit (.broadcast m)).effects)
      (t'.emit (.broadcast m)).toReplica := by
  have hkept : Ledger offered submitted hand (prior ++ t'.effects) t'.toReplica :=
    hl.silent heff hp hfilled ha
  rw [Turn.emit_effects, Turn.emit_toReplica, ← List.append_assoc]
  refine ⟨hkept.order, hfilled, fun x hx => ?_, ?_, hkept.waiting⟩
  · rcases List.mem_append.mp hx with hx | hx
    · exact hkept.placed x hx
    · rw [List.mem_singleton.mp hx]
      exact hm
  · rw [answers_append, executions_append, List.map_append, List.map_append, hkept.answered]
    rfl

/-- The command of a vote is due. -/
theorem due (hl : Ledger offered submitted hand effects r) (ht : Tidy r) {s : Slot} {e : LogEntry}
    (he : r.log.get? s = some e) (hc : e.isCommitted = false) : Due offered s e.command := by
  obtain ⟨q, hq, hcmd, -⟩ := hl.filled.entry s e he (ht.first_le_of_vote he hc)
  exact ⟨q, hq, hcmd⟩

variable [RandomSource ρ] [StateMachine σ]

omit [RandomSource ρ] in
/-- The request at the cursor is executed and answered from its place. -/
theorem execute (hl : Ledger offered submitted hand (prior ++ t.effects) t.toReplica)
    (ht : Tidy t.toReplica) {e : LogEntry} (he : t.log.get? t.log.executeCursor = some e)
    (h : t.executeEntry e = .ok t') :
    Ledger offered submitted hand (prior ++ t'.effects) t'.toReplica := by
  obtain ⟨cursor, machine, out, hcur, rfl, hcase⟩ := Turn.executeEntry_cases h
  obtain ⟨q, hq, hcmd, howned⟩ := hl.filled.entry _ e he ht.first_le
  have hown : e.request = some q := howned (Std.le_refl _)
  rcases hcase with ⟨hnoop, -, -⟩ | ⟨c, hclient, rfl, rfl⟩
  · rw [hcmd] at hnoop
    cases hnoop
  · rw [hown, Option.toList_some, List.map_singleton]
    refine ⟨hl.order, hl.filled.execute he hcur, fun x hx => ?_, ?_, hl.waiting⟩
    · rw [← List.append_assoc, List.mem_append, List.mem_cons, List.mem_singleton] at hx
      rcases hx with hx | rfl | rfl
      · exact hl.placed x hx
      · trivial
      · exact hq
    · rw [← List.append_assoc, answers_append, executions_append, List.map_append,
        List.map_append, hl.answered]
      rfl

/-- **Every move of an undisturbed step keeps the ledger**, if no request is offered that does not
come from the hand. -/
theorem other (hin : Undisturbed before input) (ht : Tidy t.toReplica)
    (hle : before.ballot ≤ t.ballot) (hlead : before.active = true → t.active = true)
    (h : Move before input t t') (hstill : t.Still t')
    (hl : Ledger offered submitted hand (prior ++ t.effects) t.toReplica) :
    Ledger offered submitted hand (prior ++ t'.effects) t'.toReplica := by
  have hfilled := hl.filled
  cases h with
  | lead ha ho hq => exact hl.silent rfl rfl hfilled (by simp)
  | elect ballot hlog ha hn hi => exact hl.emit rfl rfl hfilled id trivial
  | offer s command request ha hs hc hgap hnext =>
    have hnone : request = none :=
      hstill.log s (.proposal t.ballot command request t.id t.now) hs (by simp [Turn.emit])
    exact absurd hs (hfilled.get?_ne_none (hgap hnone))
  | offerAgain s e ha hs hc => exact hl.emit rfl rfl (hfilled.set hs rfl rfl) id (hl.due ht hs hc)
  | choose s e ho hs hc hb hq =>
    exact hl.emit rfl rfl (hfilled.set hs rfl rfl) id (hl.due ht hs hc)
  | execute t' e hs hc h => exact hl.execute ht hs h
  | follow m hi hm hlt =>
    exact absurd hlt (Ballot.not_lt.mpr (Std.le_trans (hin.ballot_le hi) hle))
  | backOff t' h hwhy => exact absurd hwhy hin.not_superseded
  | report m log displaced hi ha hle ho h =>
    subst hi
    cases hin with
    | promise m hle hsilent =>
      have hnew : before.active = false :=
        Bool.eq_false_iff.mpr fun hact => absurd (ha.symm.trans (hlead hact)) (by simp)
      rw [Log.merge_of_silent (hsilent hnew)] at h
      cases h
      exact hl.silent (List.append_nil _) rfl hfilled id
  | countPromise m log displaced hi hstart ha hm ho h =>
    subst hi
    cases hin with
    | promise m hle hsilent =>
      rw [Log.merge_of_silent (hsilent (hstart ▸ ha))] at h
      cases h
      exact hl.silent (List.append_nil _) rfl hfilled id
  | countVote m e hi hstart hs hc hb hm ho =>
    exact hl.silent rfl rfl (hfilled.set hs rfl rfl) id
  | answer m candidate hi ho hle => subst hi; cases hin
  | vote m proposer log displaced hi ho hb h => subst hi; cases hin
  | refuse m proposer hi hstart ho hlt => subst hi; cases hin
  | learn m log displaced hi h0 h => subst hi; cases hin
  | fired hi => subst hi; cases hin
  | _ => exact hl.silent rfl hstill.pending hfilled id

/-- A leader of an undisturbed step stays in office, and nothing joins its queue. -/
theorem leads (hin : Undisturbed before input) (hle : before.ballot ≤ t.ballot)
    {c' : Turn ρ σ × List ClientRequest} (h : Carry before input (t, hand) c')
    (ha : t.active = true ∧ t.pending = []) : c'.1.active = true ∧ c'.1.pending = [] := by
  cases h with
  | enqueue t request hand hi hinactive => exact absurd (hinactive.symm.trans ha.1) (by simp)
  | dequeue t hand hact => exact ⟨hact, rfl⟩
  | offer t s request hand hact hs hnext hqueue => exact ha
  | other t t' hand h hstill =>
    refine ⟨?_, hstill.pending.trans ha.2⟩
    rcases h.active_cases ha.1 with hact | ⟨m, hi, hlt, -⟩
    · exact hact
    · exact absurd hlt (Ballot.not_lt.mpr (Std.le_trans (hin.ballot_le hi) hle))

/-- **Every move of an undisturbed step keeps the ledger.** -/
theorem carry (hin : Undisturbed before input) (ht : Tidy t.toReplica)
    (hle : before.ballot ≤ t.ballot)
    (hlead : before.active = true → t.active = true ∧ t.pending = []) {hand' : List ClientRequest}
    (h : Carry before input (t, hand) (t', hand'))
    (hl : Ledger offered submitted hand (prior ++ t.effects) t.toReplica) :
    ∃ offered', Ledger offered' submitted hand' (prior ++ t'.effects) t'.toReplica := by
  cases h with
  | enqueue t request hand hi ha =>
    refine ⟨offered, ?_, hl.filled, hl.placed, hl.answered, hl.waiting⟩
    rw [hl.order]
    simp
  | dequeue t hand ha =>
    refine ⟨offered, ?_, hl.filled, hl.placed, hl.answered, hl.waiting⟩
    rw [hl.order]
    simp
  | offer t s request hand ha hs hnext hqueue =>
    have hempty : t.pending = [] := hqueue.elim (fun hact => (hlead hact).2) id
    have hs' : s.toNat = offered.length + 1 := by
      rw [toNat_of_checkedSucc hnext, hl.filled.highest]
    refine ⟨offered ++ [request], ?_, hl.filled.offer hnext rfl rfl, fun x hx => ?_, ?_,
      fun hinactive => absurd (ha.symm.trans hinactive) (by simp)⟩
    · rw [hl.order, hempty]
      simp [Turn.emit]
    · rw [Turn.emit_effects, ← List.append_assoc, List.mem_append, List.mem_singleton] at hx
      rcases hx with hx | rfl
      · exact (hl.placed x hx).append [request]
      · exact ⟨request, .last hs', rfl⟩
    · rw [Turn.emit_effects, ← List.append_assoc, answers_append, executions_append,
        List.map_append, List.map_append, hl.answered]
      rfl
  | other t t' hand h hstill =>
    exact ⟨offered, hl.other hin ht hle (fun hact => (hlead hact).1) h hstill⟩

/-- **The moves of an undisturbed step keep the ledger**, from the request that the step brings. -/
theorem of_carries {now : Duration} {c : Turn ρ σ × List ClientRequest}
    (hin : Undisturbed r input) (ht : Tidy r) (hd : r.active = true → r.pending = [])
    (hl : Ledger offered submitted [] prior r)
    (h : Carries r input ({ r with now, effects := [] }, input.requests) c) :
    ∃ offered', Ledger offered' (submitted ++ input.requests) c.2 (prior ++ c.1.effects)
      c.1.toReplica := by
  suffices hall : Tidy c.1.toReplica ∧ r.ballot ≤ c.1.ballot ∧
      (r.active = true → c.1.active = true ∧ c.1.pending = []) ∧
      ∃ offered', Ledger offered' (submitted ++ input.requests) c.2 (prior ++ c.1.effects)
        c.1.toReplica from hall.2.2.2
  induction h with
  | refl =>
    refine ⟨ht, Std.le_refl _, fun hact => ⟨hact, hd hact⟩, offered, ?_⟩
    exact ⟨by rw [hl.order, List.append_nil], hl.filled, by simpa using hl.placed,
      by simpa using hl.answered, hl.waiting⟩
  | tail _ hcarry ih =>
    obtain ⟨ht, hle, hlead, offered', hl⟩ := ih
    exact ⟨ht.move hcarry.move, Std.le_trans hle hcarry.move.ballot_le,
      fun hact => leads hin hle hcarry (hlead hact), hl.carry hin ht hle hlead hcarry⟩

end Ledger

end PaxosLog
