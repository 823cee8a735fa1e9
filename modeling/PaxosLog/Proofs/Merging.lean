import PaxosLog.Proofs.Log.Covers
import PaxosLog.Proofs.Replica.Limits

/-!
# Promises are merged in any order

A candidate hears of its peers' logs one promise after another, in whatever order they come and some
of them more than once. What its log holds afterwards depends only on what was said, as long as
nobody contradicts anybody: one ballot stands for one command of a slot, and one command is chosen
for it (`Agreeing`).

Two facts about a log that promises were folded into make up the join of a slot:

* `said_of_mergeAll`: what the slot holds was said by the log before or by a promise,
* `covers_of_mergeAll`: and nothing that was said says more.

**`merged_in_any_order`**: so a slot of which nothing was said stays empty, a command that anybody
knows to be chosen is chosen, and otherwise the vote under the highest ballot remains.
-/

namespace PaxosLog

/-- A slot and what is said about it. -/
abbrev Statement := Slot × PromisedEntry

/-- Nobody contradicts anybody: statements on a slot under one ballot are for one command, and
so are those that call a command chosen. Nothing is asked of the sentinel. -/
def Agreeing (said : List Statement) : Prop :=
  ∀ p ∈ said, ∀ q ∈ said, p.1 = q.1 → p.1 ≠ Slot.sentinel →
    (p.2.ballot = q.2.ballot → p.2.command = q.2.command) ∧
    (p.2.committed = true → q.2.committed = true → p.2.command = q.2.command)

instance (said : List Statement) : Decidable (Agreeing said) :=
  inferInstanceAs (Decidable (∀ p ∈ said, ∀ q ∈ said, _))

/-- What a slot holds is the join of what is said about it. -/
inductive JoinOf (said : List Statement) (s : Slot) : SlotState → Prop
  /-- Nothing is said about the slot. -/
  | absent (h : ∀ r, (s, r) ∉ said) : JoinOf said s .absent
  /-- Somebody knows that a command is chosen. -/
  | committed (e : LogEntry) (hsome : ∃ r, (s, r) ∈ said ∧ r.committed = true)
      (h : ∀ r, (s, r) ∈ said → r.committed = true → e.command = r.command) :
      JoinOf said s (.committed e)
  /-- Nobody does, and the slot has the vote under the highest ballot. -/
  | accepted (e : LogEntry) (hsome : ∃ r, (s, r) ∈ said ∧ r.ballot = e.ballot)
      (hmax : ∀ r, (s, r) ∈ said → r.committed = false ∧ r.ballot ≤ e.ballot)
      (h : ∀ r, (s, r) ∈ said → r.ballot = e.ballot → e.command = r.command) :
      JoinOf said s (.accepted e)

/-- The join depends on what is said only. -/
theorem JoinOf.congr {said said' : List Statement} {s : Slot} {x : SlotState}
    (h : JoinOf said s x) (hsaid : ∀ p, p ∈ said ↔ p ∈ said') : JoinOf said' s x := by
  cases h with
  | absent h => exact .absent (by simpa only [hsaid] using h)
  | committed e hsome h =>
    simp only [hsaid] at hsome h
    exact .committed e hsome h
  | accepted e hsome hmax h =>
    simp only [hsaid] at hsome hmax h
    exact .accepted e hsome hmax h

section

variable {said : List Statement} {s : Slot} {x : SlotState} {r : PromisedEntry}

/-- A slot of which nothing is said is empty. -/
theorem JoinOf.eq_absent (h : JoinOf said s x) (hsilent : ∀ r, (s, r) ∉ said) : x = .absent := by
  cases h with
  | absent h => rfl
  | committed e hsome h =>
    obtain ⟨r, hr, -⟩ := hsome
    exact absurd hr (hsilent r)
  | accepted e hsome hmax h =>
    obtain ⟨r, hr, -⟩ := hsome
    exact absurd hr (hsilent r)

/-- A command that is said to be chosen is. -/
theorem JoinOf.exists_committed (h : JoinOf said s x) (hr : (s, r) ∈ said)
    (hc : r.committed = true) : ∃ e, x = .committed e ∧ e.command = r.command := by
  cases h with
  | absent h => exact absurd hr (h r)
  | committed e hsome h => exact ⟨e, rfl, h r hr hc⟩
  | accepted e hsome hmax h => exact absurd (hc.symm.trans (hmax r hr).1) (by simp)

/-- Where nobody knows of a chosen command, the vote under the highest ballot is. -/
theorem JoinOf.exists_accepted (h : JoinOf said s x) (hr : (s, r) ∈ said)
    (hmax : ∀ q, (s, q) ∈ said → q.committed = false ∧ q.ballot ≤ r.ballot) :
    ∃ e, x = .accepted e ∧ e.ballot = r.ballot ∧ e.command = r.command := by
  cases h with
  | absent h => exact absurd hr (h r)
  | committed e hsome h =>
    obtain ⟨q, hq, hc⟩ := hsome
    exact absurd (hc.symm.trans (hmax q hq).1) (by simp)
  | accepted e hsome hle h =>
    obtain ⟨q, hq, hb⟩ := hsome
    have heq : r.ballot = e.ballot :=
      Std.le_antisymm (hle r hr).2 (hb ▸ (hmax q hq).2)
    exact ⟨e, rfl, heq.symm, h r hr heq⟩

end

/-- An entry that was said itself and covers everything that was said is the join. -/
theorem joinOf_of_covers {said : List Statement} (hagree : Agreeing said) {s : Slot}
    (hs : s ≠ Slot.sentinel) {e : LogEntry} (hsaid : (s, e.promised) ∈ said)
    (hcovers : ∀ r, (s, r) ∈ said → e.Covers r) :
    JoinOf said s (if e.isCommitted then .committed e else .accepted e) := by
  cases hc : e.isCommitted with
  | true =>
    refine .committed e ⟨_, hsaid, hc⟩ fun r hr hrc => ?_
    exact (hagree _ hsaid _ hr rfl hs).2 hc hrc
  | false =>
    refine .accepted e ⟨_, hsaid, rfl⟩ (fun r hr => ?_) fun r hr hb => ?_
    · exact (hcovers r hr).resolve_left (by simp [hc])
    · exact (hagree _ hsaid _ hr rfl hs).1 hb.symm

/-- A join leaves the entry that was there or takes what was reported. -/
theorem LogEntry.promised_join (r : PromisedEntry) (local? : Option LogEntry) :
    (join r local?).promised = r ∨ ∃ e, local? = some e ∧ join r local? = e := by
  cases local? with
  | none => exact .inl (by simp [join, promised])
  | some e =>
    unfold join
    simp only
    split
    · exact .inr ⟨e, rfl, rfl⟩
    · rename_i hc
      split
      · rename_i hr
        refine .inl ?_
        obtain ⟨command, ballot, committed⟩ := r
        simp_all [promised, commit, isCommitted]
      · rename_i hr
        split
        · refine .inl ?_
          obtain ⟨command, ballot, committed⟩ := r
          simp_all [promised]
        · exact .inr ⟨e, rfl, rfl⟩

namespace Log

variable {log log' : Log} {reports : List (SlotMap PromisedEntry)} {s : Slot}

/-- Everything that a log and the reports of several promises say. -/
def said (log : Log) (reports : List (SlotMap PromisedEntry)) : List Statement :=
  log.entries.toList.map (fun (s, e) => (s, e.promised)) ++ reports.flatMap (·.toList)

/-- Folds in the reports of several promises, one after another. -/
def mergeAll (log : Log) (reports : List (SlotMap PromisedEntry)) : Except Fault Log :=
  reports.foldlM (fun log reported => (log.merge reported).map (·.1)) log

theorem mem_said {r : PromisedEntry} :
    (s, r) ∈ log.said reports ↔
      (∃ e, log.get? s = some e ∧ e.promised = r) ∨ ∃ m ∈ reports, m[s]? = some r := by
  simp only [said, List.mem_append, List.mem_map, List.mem_flatMap, Prod.exists, Prod.mk.injEq,
    Std.ExtTreeMap.mem_toList_iff_getElem?_eq_some, get?]
  grind

/-- Only what is said counts, not how often and in which order. -/
theorem mem_said_congr {order : List (SlotMap PromisedEntry)} (h : ∀ m, m ∈ order ↔ m ∈ reports)
    (p : Statement) : p ∈ log.said order ↔ p ∈ log.said reports := by
  obtain ⟨s, r⟩ := p
  simp only [mem_said, h]

/-! ## One promise -/

/-- What a slot holds after a promise was said by the log before or by the promise. -/
theorem Merged.said {reported : SlotMap PromisedEntry} (h : Merged log log' reported)
    {e : LogEntry} (he : log'.get? s = some e) :
    log.get? s = some e ∨ reported[s]? = some e.promised := by
  by_cases hs : s = Slot.sentinel ∨ reported[s]? = none
  · exact .inl (h.kept s hs ▸ he)
  · obtain ⟨hs, hr⟩ := not_or.mp hs
    obtain ⟨r, hr⟩ := Option.ne_none_iff_exists'.mp hr
    rw [h.joined s r hs hr, Option.some_inj] at he
    rcases LogEntry.promised_join r (log.get? s) with hnew | ⟨e₀, he₀, hold⟩
    · exact .inr (by rw [hr, ← he, hnew])
    · exact .inl (by rw [he₀, ← hold, he])

/-- The highest slot after a promise was the highest one before or was reported. -/
theorem highestSlot_of_merge {reported : SlotMap PromisedEntry} {displaced : List ClientRequest}
    (h : log.merge reported = .ok (log', displaced)) :
    log'.highestSlot = log.highestSlot ∨ log'.highestSlot ∈ reported := by
  refine merge_induction (P := fun l => l.highestSlot = log.highestSlot ∨ l.highestSlot ∈ reported)
    (fun {l l' s r} hr hj hl => ?_) h (.inl rfl)
  have hmem : s ∈ reported := Std.ExtTreeMap.mem_iff_isSome_getElem?.mpr (by simp [hr])
  have hmax : l'.highestSlot = if l.highestSlot ≤ s then s else l.highestSlot := hj.highest
  split at hmax
  · exact .inr (hmax ▸ hmem)
  · rwa [hmax]

/-! ## Several promises -/

/-- What every promise keeps, several of them keep. -/
theorem mergeAll_induction {P : Log → Prop}
    (hmerge : ∀ {log log' m displaced}, m ∈ reports → log.merge m = .ok (log', displaced) →
      P log → P log')
    (h : log.mergeAll reports = .ok log') (hlog : P log) : P log' := by
  induction reports generalizing log with
  | nil => cases h; exact hlog
  | cons m reports ih =>
    obtain ⟨log₁, h₁, h⟩ := bind_eq_ok.mp h
    obtain ⟨⟨_, displaced⟩, hm, rfl⟩ := map_eq_ok.mp h₁
    exact ih (fun hmem => hmerge (List.mem_cons_of_mem _ hmem)) h (hmerge (by simp) hm hlog)

/-- Promises never make a log fail. -/
theorem exists_mergeAll (log : Log) (reports : List (SlotMap PromisedEntry)) :
    ∃ log', log.mergeAll reports = .ok log' := by
  induction reports generalizing log with
  | nil => exact ⟨log, rfl⟩
  | cons m reports ih =>
    cases hm : log.merge m with
    | error f => exact absurd hm (merge_ne_error log m f)
    | ok p =>
      obtain ⟨log', h⟩ := ih p.1
      exact ⟨log', bind_eq_ok.mpr ⟨p.1, map_eq_ok.mpr ⟨p, hm, rfl⟩, h⟩⟩

theorem grows_of_mergeAll (h : log.mergeAll reports = .ok log') : log.Grows log' :=
  mergeAll_induction (P := fun l => log.Grows l)
    (fun _ hm hl => hl.trans (merged_merge hm).grows) h (grows_refl log)

/-- **Nothing is made up**: what a slot holds was said by the log or by a promise. -/
theorem said_of_mergeAll (h : log.mergeAll reports = .ok log') {e : LogEntry}
    (he : log'.get? s = some e) : (s, e.promised) ∈ log.said reports := by
  refine mergeAll_induction
    (P := fun l => ∀ e, l.get? s = some e → (s, e.promised) ∈ log.said reports)
    (fun hmem hm hl e he => ?_) h (fun e he => mem_said.mpr (.inl ⟨e, he, rfl⟩)) e he
  rcases (merged_merge hm).said he with hold | hnew
  · exact hl e hold
  · exact mem_said.mpr (.inr ⟨_, hmem, hnew⟩)

theorem highestSlot_le_of_mergeAll (h : log.mergeAll reports = .ok log') :
    log.highestSlot ≤ log'.highestSlot :=
  mergeAll_induction (P := fun l => log.highestSlot ≤ l.highestSlot)
    (fun _ hm hl => Std.le_trans hl (merged_merge hm).highest) h (Std.le_refl _)

/-- What a promise reports is covered and below the highest slot, from then on. -/
theorem reported_of_mergeAll (h : log.mergeAll reports = .ok log') {m : SlotMap PromisedEntry}
    (hm : m ∈ reports) (hs : s ≠ Slot.sentinel) {r : PromisedEntry} (hr : m[s]? = some r) :
    log'.Covers s r ∧ s ≤ log'.highestSlot := by
  induction reports generalizing log with
  | nil => cases hm
  | cons m' reports ih =>
    obtain ⟨log₁, h₁, h⟩ := bind_eq_ok.mp h
    rcases List.mem_cons.mp hm with rfl | hm
    · obtain ⟨⟨_, displaced⟩, hmerge, rfl⟩ := map_eq_ok.mp h₁
      have hmerged := merged_merge hmerge
      constructor
      · exact (hmerged.covers_reported hs hr).grows (grows_of_mergeAll h)
      · exact Std.le_trans (hmerged.covers s r hs hr) (highestSlot_le_of_mergeAll h)
    · exact ih h hm

/-- **Nothing is lost**: what was said is covered. -/
theorem covers_of_mergeAll (h : log.mergeAll reports = .ok log') (hs : s ≠ Slot.sentinel)
    {r : PromisedEntry} (hr : (s, r) ∈ log.said reports) : log'.Covers s r := by
  rcases mem_said.mp hr with ⟨e, he, rfl⟩ | ⟨m, hm, hr⟩
  · have hself : log.Covers s e.promised := by
      refine ⟨e, he, ?_⟩
      cases hc : e.isCommitted with
      | true => exact .inl hc
      | false => exact .inr ⟨hc, Std.le_refl _⟩
    exact hself.grows (grows_of_mergeAll h)
  · exact (reported_of_mergeAll h hm hs hr).1

/-- The highest slot is the highest one known before or reported. -/
theorem highestSlot_of_mergeAll (h : log.mergeAll reports = .ok log') :
    log'.highestSlot = log.highestSlot ∨ ∃ m ∈ reports, log'.highestSlot ∈ m := by
  refine mergeAll_induction (P := fun l => l.highestSlot = log.highestSlot ∨
    ∃ m ∈ reports, l.highestSlot ∈ m) (fun hmem hm hl => ?_) h (.inl rfl)
  rcases highestSlot_of_merge hm with hsame | hnew
  · rwa [hsame]
  · exact .inr ⟨_, hmem, hnew⟩

/-- Nothing is learned about the sentinel, and nothing is executed. -/
theorem untouched_of_mergeAll (h : log.mergeAll reports = .ok log') :
    log'.get? Slot.sentinel = log.get? Slot.sentinel ∧ log'.executeCursor = log.executeCursor :=
  mergeAll_induction (P := fun l => l.get? Slot.sentinel = log.get? Slot.sentinel ∧
      l.executeCursor = log.executeCursor)
    (fun _ hm hl => by
      have hmerged := merged_merge hm
      exact ⟨(hmerged.kept _ (.inl rfl)).trans hl.1, hmerged.cursor.trans hl.2⟩)
    h ⟨rfl, rfl⟩

/-- **The join of what was said**: what each slot holds after the promises. -/
theorem joinOf_mergeAll (hagree : Agreeing (log.said reports))
    (h : log.mergeAll reports = .ok log') (hs : s ≠ Slot.sentinel) :
    JoinOf (log.said reports) s (log'.state s) := by
  unfold state
  cases he : log'.get? s with
  | none =>
    refine .absent fun r hr => ?_
    obtain ⟨e, he', -⟩ := covers_of_mergeAll h hs hr
    rw [he] at he'
    cases he'
  | some e =>
    refine joinOf_of_covers hagree hs (said_of_mergeAll h he) fun r hr => ?_
    obtain ⟨e', he', hcovers⟩ := covers_of_mergeAll h hs hr
    rw [he, Option.some_inj] at he'
    exact he' ▸ hcovers

/-- **Promises are merged in any order.** Whatever a log holds and several promises report, if
nobody contradicts anybody: however the promises are ordered and however often they come, folding
them in succeeds and leaves at each slot but the sentinel the join of what the log and the promises
say about it. The highest slot is the highest one that was known or reported, and the sentinel and
the cursor stay. -/
theorem merged_in_any_order {order : List (SlotMap PromisedEntry)}
    (hagree : Agreeing (log.said reports)) (horder : ∀ m, m ∈ order ↔ m ∈ reports) :
    ∃ log', log.mergeAll order = .ok log' ∧
      (∀ s, s ≠ Slot.sentinel → JoinOf (log.said reports) s (log'.state s)) ∧
      log.highestSlot ≤ log'.highestSlot ∧
      (∀ m ∈ reports, ∀ s ∈ m, s ≤ log'.highestSlot) ∧
      (log'.highestSlot = log.highestSlot ∨ ∃ m ∈ reports, log'.highestSlot ∈ m) ∧
      log'.get? Slot.sentinel = log.get? Slot.sentinel ∧
      log'.executeCursor = log.executeCursor := by
  obtain ⟨log', h⟩ := exists_mergeAll log order
  have hsaid : ∀ p, p ∈ log.said order ↔ p ∈ log.said reports := mem_said_congr horder
  refine ⟨log', h, fun s hs => ?_, highestSlot_le_of_mergeAll h, fun m hm s hsm => ?_, ?_,
    untouched_of_mergeAll h⟩
  · have hagree' : Agreeing (log.said order) := by
      intro p hp q hq
      exact hagree p ((hsaid p).mp hp) q ((hsaid q).mp hq)
    exact (joinOf_mergeAll hagree' h hs).congr hsaid
  · by_cases hs : s = Slot.sentinel
    · rw [hs, UInt64.le_iff_toNat_le]
      exact Nat.zero_le _
    · obtain ⟨r, hr⟩ := Option.isSome_iff_exists.mp (Std.ExtTreeMap.mem_iff_isSome_getElem?.mp hsm)
      exact (reported_of_mergeAll h ((horder m).mpr hm) hs hr).2
  · exact (highestSlot_of_mergeAll h).imp_right fun ⟨m, hm, hmem⟩ => ⟨m, (horder m).mp hm, hmem⟩

/-- A replica that voted at the first slot hears twice of a peer that knows the command there to be
chosen, and in between of one that voted at the first and the third slot under lower ballots. -/
theorem merged_in_any_order_repeated :
    let log : Log := (Log.empty.observe 1).set 1 (.vote ⟨1, some 1⟩ (.client [65]))
    let lower : SlotMap PromisedEntry :=
      .ofPairs [(1, ⟨.client [65], ⟨1, some 1⟩, false⟩), (3, ⟨.client [67], ⟨1, some 1⟩, false⟩)]
    let higher : SlotMap PromisedEntry :=
      .ofPairs [(1, ⟨.client [66], ⟨2, some 2⟩, true⟩), (3, ⟨.client [68], ⟨2, some 2⟩, false⟩)]
    Agreeing (log.said [lower, higher]) ∧
      ∃ log', log.mergeAll [higher, lower, higher] = .ok log' ∧
        (∃ e, log'.state 1 = .committed e ∧ e.command = .client [66]) ∧
        log'.state 2 = .absent ∧
        (∃ e, log'.state 3 = .accepted e ∧ e.ballot = ⟨2, some 2⟩ ∧ e.command = .client [68]) ∧
        log'.highestSlot = 3 := by
  intro log lower higher
  have hagree : Agreeing (log.said [lower, higher]) := by decide +kernel
  have horder : ∀ m, m ∈ [higher, lower, higher] ↔ m ∈ [lower, higher] := by simp
  obtain ⟨log', h, hjoin, -, hcovers, hhigh, -, -⟩ := merged_in_any_order hagree horder
  have hone : (1, ⟨.client [66], ⟨2, some 2⟩, true⟩) ∈ log.said [lower, higher] := by
    decide +kernel
  have htwo : ∀ p ∈ log.said [lower, higher], p.1 ≠ 2 := by decide +kernel
  have hthree : (3, ⟨.client [68], ⟨2, some 2⟩, false⟩) ∈ log.said [lower, higher] := by
    decide +kernel
  have hmax : ∀ p ∈ log.said [lower, higher], p.1 = 3 →
      p.2.committed = false ∧ p.2.ballot ≤ ⟨2, some 2⟩ := by decide +kernel
  refine ⟨hagree, log', h, (hjoin 1 (by decide)).exists_committed hone rfl,
    (hjoin 2 (by decide)).eq_absent fun r hr => htwo _ hr rfl,
    (hjoin 3 (by decide)).exists_accepted hthree fun q hq => hmax _ hq rfl, ?_⟩
  have hle : 3 ≤ log'.highestSlot := hcovers higher (by simp) 3 (by decide +kernel)
  rcases hhigh with hsame | ⟨m, hm, hmem⟩
  · rw [hsame] at hle
    exact absurd hle (by decide)
  · have hslots : 3 = log'.highestSlot ∨ 1 = log'.highestSlot := by
      simp only [List.mem_cons, List.not_mem_nil, or_false] at hm
      rcases hm with rfl | rfl <;> simpa [lower, higher, SlotMap.ofPairs] using hmem
    rcases hslots with heq | heq
    · exact heq.symm
    · rw [← heq] at hle
      exact absurd hle (by decide)

end Log

end PaxosLog
