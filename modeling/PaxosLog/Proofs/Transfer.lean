import PaxosLog.Proofs.Leadership
import PaxosLog.Proofs.Network.Delivery
import PaxosLog.Proofs.Replica.Reach

/-!
# A promise transfers what its sender knows

A candidate asks for reports from a slot on that it has not executed, so a promise leaves out only
what the candidate had executed by then. What it reports is folded in, and what a log holds only
grows for the rest of the step. So after the step the candidate has chosen what its sender had
chosen, remembers what its sender had voted for, and has executed as far.

* `Network.Reachable.topped`: the highest slot that a replica knows of holds an entry, so that a
  report which covers the entries covers the slots.
* `Network.Reachable.grows`: from any point of a step on the log only grows.

**`Network.promise_transfers`**: in every run, for every promise that is not ignored.
-/

namespace PaxosLog

variable {ρ σ : Type}

/-- What `log` knows of slot `s` is no less than what the entry `e` says: the command is chosen, or
`e` is a vote and so is the entry, under a ballot that is not lower, and for the same command if the
ballot is the same. -/
def Log.Remembers (log : Log) (s : Slot) (e : LogEntry) : Prop :=
  ∃ e', log.get? s = some e' ∧ (e'.isCommitted = true ∨
    e.isCommitted = false ∧ e.ballot ≤ e'.ballot ∧ (e'.ballot = e.ballot → e'.command = e.command))

variable [RandomSource ρ] [StateMachine σ]

namespace Network

variable {spec : QuorumSpec} {net : Network ρ σ} {p : ReplicaId}

theorem Reachable.topped (hr : Reachable spec net) (hp : p ∈ net.members) :
    (net.replica p).log.Topped := by
  obtain ⟨n, config, source, machine, fresh, hstart, hrun⟩ := hr.run p hp
  exact hrun.topped hstart

/-! ## Logs grow during a step -/

/-- From any point of a step on the log only grows. -/
theorem Reachable.grows (hr : Reachable spec net) (hp : p ∈ net.members) {input : Input}
    (hpossible : net.Possible p input) {now : Duration} {t₁ t₂ : Turn ρ σ}
    (h₁ : Moves (net.replica p) input { net.replica p with now, effects := [] } t₁)
    (h₂ : Moves (net.replica p) input t₁ t₂) : t₁.log.Grows t₂.log := by
  induction h₂ with
  | refl => exact Log.grows_refl _
  | @tail t t' h hmove ih =>
    have horderly := hr.amid (orderly spec) hp hpossible (h₁.trans h)
    have hgrows := horderly.grows (hop_of_move hp hpossible hmove) p
    rw [(hop_of_move hp hpossible hmove).here, (hop_of_move hp hpossible hmove).here'] at hgrows
    exact ih.trans hgrows

/-- What `p` holds once it has folded in what `m` reports, it holds or grows at the end. -/
theorem Reachable.folded (hr : Reachable spec net) (hp : p ∈ net.members) {m : Promise}
    (hsent : net.Sent p (.promise m)) (ha : (net.replica p).active = false)
    (hb : (net.replica p).ballot ≤ m.ballot) {now : Duration} {r' : Replica ρ σ}
    {out : List Effect} (hs : (net.replica p).step now (.message (.promise m)) = .ok (r', out)) :
    ∃ log, Log.Merged (net.replica p).log log m.log ∧ log.Grows r'.log := by
  obtain ⟨t, ht, heq⟩ := map_eq_ok.mp hs
  cases heq
  obtain ⟨t₁, hmerged, hcarries⟩ :=
    Turn.merged_onPromise rfl (rfl : _ = net.replica p) ha hb ht
  obtain ⟨hcarry, hrest⟩ := hcarries []
  have hpossible : net.Possible p (.message (.promise m)) := hsent
  exact ⟨t₁.log, hmerged, hr.grows hp hpossible (.single hcarry.move) (Carries.moves hrest)⟩

/-! ## What a promise leaves out, and what it reports -/

/-- What the sender of `m` knew when it sent `m`: `p` has executed it, or `m` reports it. -/
theorem Reachable.reports (hr : Reachable spec net) (hp : p ∈ net.members) {m : Promise}
    {a : Occurrence ρ σ} (ha : a ∈ net.past) (hsends : a.Sends p (.promise m)) :
    a.id = m.sender ∧ ∀ s e, a.after.log.get? s = some e →
      s < (net.replica p).log.executeCursor ∨ s ≠ Slot.sentinel ∧ m.log[s]? = some e.promised := by
  have hsound := hr.view (sound spec)
  have hx : .send p (.promise m) ∈ a.effects := by
    rcases hsends with hx | ⟨-, hx⟩
    · exact hx
    · exact (hsound.orderly.proper _ _ _ ⟨a, ha, rfl, rfl, hx⟩).elim
  obtain ⟨later, earlier, hpast⟩ := List.append_of_mem ha
  obtain ⟨net₀, htaken, hpast₀, -⟩ := hr.split hpast
  obtain ⟨hsender, -, i, b, start, ⟨o, ho, hopens⟩, -, hreport⟩ := htaken.promise hx
  refine ⟨hsender.symm, fun s e he => ?_⟩
  have hstart : start ≤ (net.replica p).log.executeCursor :=
    (hsound.backing.opened p i b start ⟨o, mem_of_earlier hpast (hpast₀ ▸ ho), hopens⟩).2.2
  have hfirst : Slot.first ≤ (net.replica p).log.executeCursor :=
    (hsound.orderly.tidy p hp).first_le
  by_cases hlt : s < (net.replica p).log.executeCursor
  · exact .inl hlt
  · have hle := Std.not_lt.mp hlt
    refine .inr ⟨?_, hreport s e (Log.max_first_le (Std.le_trans hstart hle)
      (Std.le_trans hfirst hle)) he⟩
    rintro rfl
    exact absurd (Std.le_trans hfirst hle) (by decide)

/-- What the sender of `m` knew when it sent `m`, `p` remembers once it has handled `m`. -/
theorem Reachable.remembers (hr : Reachable spec net) (hp : p ∈ net.members) {m : Promise}
    (hsent : net.Sent p (.promise m)) {a : Occurrence ρ σ} (ha : a ∈ net.past)
    (hsends : a.Sends p (.promise m)) {log log' : Log}
    (hmerged : Log.Merged (net.replica p).log log m.log) (hgrows : log.Grows log') {s : Slot}
    {e : LogEntry} (he : a.after.log.get? s = some e) : log'.Remembers s e := by
  have hsound := hr.view (sound spec)
  rcases (hr.reports hp ha hsends).2 s e he with hlt | ⟨h0, hreport⟩
  · obtain ⟨e₀, he₀, hc₀⟩ := (hsound.orderly.tidy p hp).done s hlt
    obtain ⟨e', he', hg⟩ := (hmerged.grows.trans hgrows).entry s e₀ he₀
    exact ⟨e', he', .inl (hg.chosen hc₀).1⟩
  · cases hc : e.isCommitted with
    | true =>
      obtain ⟨e', he', hg⟩ := hgrows.entry s _ (hmerged.joined s _ h0 hreport)
      exact ⟨e', he', .inl (hg.chosen (LogEntry.isCommitted_join hc _)).1⟩
    | false =>
      -- one ballot asks for one command, so an own vote under the reported ballot agrees
      obtain ⟨q, hsent⟩ := hsent.view
      have hasked := hsound.voting.reported q p m hsent s _ hreport hc
      have hrecalls : log.Recalls s e.ballot e.command := by
        refine hmerged.recalls h0 ⟨_, hreport, .inr ⟨Std.le_refl _, fun _ => rfl⟩⟩
          fun e₀ he₀ hc₀ hb₀ => ?_
        have hasked₀ := hsound.voting.entry p hp s e₀ he₀ hc₀
        rw [hb₀] at hasked₀
        exact hsound.voting.unique _ s _ _ hasked₀ hasked
      obtain ⟨e', he', hrecall⟩ := hrecalls.grows hgrows
      exact ⟨e', he', hrecall.imp_right fun hrecall => ⟨hc, hrecall⟩⟩

/-- **A promise transfers everything that its sender knows.** In every run, when a promise arrives
that is not ignored, the replica handles it without a fault, unless a counter is at its limit or no
delay can be made. Then compare it with the sender at the time when the promise was sent: it has
executed as far, it knows of slots as high, and for every entry of the sender it holds a chosen one
at this slot, or, if the entry of the sender was a vote, a vote under a ballot that is not lower,
for the same command if the ballot is the same. -/
theorem promise_transfers (hr : Reachable spec net) (hp : p ∈ net.members) {m : Promise}
    (hsent : net.Sent p (.promise m)) (hactive : (net.replica p).active = false)
    (hb : (net.replica p).ballot ≤ m.ballot) (now : Duration) :
    (∃ r' out, (net.replica p).step now (.message (.promise m)) = .ok (r', out) ∧
      ∀ a ∈ net.past, a.Sends p (.promise m) → a.id = m.sender ∧
        a.after.log.executeCursor ≤ r'.log.executeCursor ∧
        a.after.log.highestSlot ≤ r'.log.highestSlot ∧
        ∀ s e, a.after.log.get? s = some e → r'.log.Remembers s e) ∨
    ∃ f, (net.replica p).step now (.message (.promise m)) = .error f ∧
      (net.replica p).AtLimit (.message (.promise m)) f := by
  have htidy : Tidy (net.replica p) := (hr.view (sound spec)).orderly.tidy p hp
  cases hs : (net.replica p).step now (.message (.promise m)) with
  | error f => exact .inr ⟨f, rfl, atLimit_of_step htidy hs⟩
  | ok r =>
    obtain ⟨r', out⟩ := r
    refine .inl ⟨r', out, rfl, fun a ha hsends => ?_⟩
    have hhandled : Taken spec net ⟨p, .message (.promise m), net.replica p, r', out⟩ :=
      ⟨hr, hp, rfl, hsent, now, hs⟩
    obtain ⟨log, hmerged, hgrows⟩ := hr.folded hp hsent hactive hb hs
    have hremembers : ∀ s e, a.after.log.get? s = some e → r'.log.Remembers s e :=
      fun s e => hr.remembers hp hsent ha hsends hmerged hgrows
    obtain ⟨net₀, htaken⟩ := hr.taken ha
    refine ⟨(hr.reports hp ha hsends).1, Std.not_lt.mp fun hlt => ?_, ?_, hremembers⟩
    · -- what the sender had executed is chosen, and the entry at the cursor never is
      obtain ⟨e, he, hc⟩ := htaken.after_orderly.2.done _ hlt
      obtain ⟨e', he', hc' | ⟨hvote, -⟩⟩ := hremembers _ e he
      · have hidle := (rested_of_step htidy (hr.rested hp) hs).idle e' he'
        exact absurd (hc'.symm.trans hidle) (by simp)
      · exact absurd (hc.symm.trans hvote) (by simp)
    · have htopped := htaken.next.topped htaken.member
      rw [net₀.replica_record_self] at htopped
      obtain ⟨e, he⟩ := htopped
      obtain ⟨e', he', -⟩ := hremembers _ e he
      exact hhandled.after_orderly.2.bounded _ e' he'

/-- What replica 2 promises replica 3 when it has one command chosen and has voted for another. -/
def electing : Promise :=
  ⟨⟨1, some 3⟩, 2, .ofPairs [(2, ⟨.client [66], ⟨1, some 1⟩, false⟩),
    (1, ⟨.client [65], ⟨1, some 1⟩, true⟩)]⟩

/-- Replica 3, which knew nothing, is elected with the promise `electing`. It has then executed what
replica 2 had executed, and remembers what replica 2 had voted for. -/
theorem promise_transfers_elected : ∃ (net : Network Script Journal) (r' : Replica Script Journal)
    (out : List Effect), Reachable .three net ∧ (net.replica 3).log.highestSlot = 0 ∧
    (net.replica 3).step .zero (.message (.promise electing)) = .ok (r', out) ∧ r'.active = true ∧
    ∃ a ∈ net.past, a.Sends 3 (.promise electing) ∧ a.after.log.executeCursor = 2 ∧
      a.after.log.executeCursor ≤ r'.log.executeCursor ∧
      ∀ s e, a.after.log.get? s = some e → r'.log.Remembers s e := by
  obtain ⟨net, hs, hmem, hactive, hb, hhigh, ⟨a, ha, hsends, hcursor⟩, hleads⟩ :=
    trio.exists_of_play
      (firstElection ++
        [(2, .message (.accept ⟨⟨1, some 1⟩, 1, .client [65]⟩)),
          (1, .message (.accepted ⟨⟨1, some 1⟩, 1, 2⟩)),
          (2, .message (.commit ⟨⟨1, some 1⟩, 1, .client [65]⟩)), (1, .request ⟨1, [66]⟩),
          (2, .message (.accept ⟨⟨1, some 1⟩, 2, .client [66]⟩)), (3, .elect),
          (2, .message (.prepare ⟨⟨1, some 3⟩, 1⟩))])
      (fun net => 3 ∈ net.members ∧ (net.replica 3).active = false ∧
        (net.replica 3).ballot ≤ electing.ballot ∧ (net.replica 3).log.highestSlot = 0 ∧
        (∃ a ∈ net.past, a.Sends 3 (.promise electing) ∧ a.after.log.executeCursor = 2) ∧
        ((net.replica 3).step .zero (.message (.promise electing))).toOption.any
          (fun r => r.1.active) = true)
      (by decide +kernel)
  have hr : Reachable .three net := ⟨trio, fresh_trio, hs⟩
  rcases promise_transfers hr hmem ⟨a, ha, hsends⟩ hactive hb .zero with
    ⟨r', out, hstep, htransfer⟩ | ⟨f, hfault, -⟩
  · obtain ⟨-, hle, -, hremembers⟩ := htransfer a ha hsends
    rw [hstep] at hleads
    exact ⟨net, r', out, hr, hhigh, hstep, hleads, a, ha, hsends, hcursor, hle, hremembers⟩
  · rw [hfault] at hleads
    cases hleads

end Network

end PaxosLog
