import PaxosLog.Log

/-!
# What a log takes from its peers

Votes, announcements and promises reach a log in the same way: at each slot the entry is joined
with what was reported there. `LogEntry.join` is that join, and the table of `PaxosLog.Log` its
definition; this file says that the operations of the log compute it.

* `joined_vote`, `joined_learn`: voting and learning join one slot and touch no other.
* `merged_merge`: folding in a promise joins every reported slot but the sentinel.
* `getElem?_promised`: a promise reports exactly the entries from the asked slot on.

`Log.Recalls` is what a vote leaves behind: from the vote on, the slot holds a chosen command or a
vote under a ballot that is not lower. `LogEntry.Grows` is how entries change, and keeps it.
-/

namespace PaxosLog

/-- A map names each slot once. -/
theorem SlotMap.nodup_keys {α : Type} (m : SlotMap α) : (m.toList.map Prod.fst).Nodup := by
  rw [List.Nodup, List.pairwise_map]
  exact Std.ExtTreeMap.distinct_keys_toList.imp fun hne heq => hne (by simp [heq])

namespace LogEntry

/-- The entry under another ballot and command. It keeps its request if the command stays. -/
def replaced (e : LogEntry) (ballot : Ballot) (command : Command) : LogEntry :=
  if e.command = command then { e with ballot } else { e with ballot, command, request := none }

/-- What a slot holds after a report on it. -/
def join (r : PromisedEntry) : Option LogEntry → LogEntry
  | none => .reported r
  | some e =>
    if e.isCommitted then e
    else if r.committed then (e.replaced r.ballot r.command).commit
    else if e.ballot < r.ballot then e.replaced r.ballot r.command
    else e

@[simp] theorem isCommitted_vote (b : Ballot) (c : Command) : (vote b c).isCommitted = false := rfl

@[simp] theorem isCommitted_chosen (b : Ballot) (c : Command) :
    (chosen b c).isCommitted = true := rfl

@[simp] theorem isCommitted_commit (e : LogEntry) : e.commit.isCommitted = true := rfl

@[simp] theorem ballot_replaced (e : LogEntry) (b : Ballot) (c : Command) :
    (e.replaced b c).ballot = b := by
  unfold replaced; split <;> rfl

@[simp] theorem command_replaced (e : LogEntry) (b : Ballot) (c : Command) :
    (e.replaced b c).command = c := by
  unfold replaced; split
  · assumption
  · rfl

@[simp] theorem isCommitted_replaced (e : LogEntry) (b : Ballot) (c : Command) :
    (e.replaced b c).isCommitted = e.isCommitted := by
  unfold replaced; split <;> rfl

@[simp] theorem ballot_reported (r : PromisedEntry) : (reported r).ballot = r.ballot := by
  unfold reported; split <;> rfl

@[simp] theorem command_reported (r : PromisedEntry) : (reported r).command = r.command := by
  unfold reported; split <;> rfl

@[simp] theorem isCommitted_reported (r : PromisedEntry) :
    (reported r).isCommitted = r.committed := by
  unfold reported; split <;> simp_all

/-- A vote can be replaced; the request that loses its slot is handed out. -/
theorem overwrite_eq_ok {e e' : LogEntry} {b : Ballot} {c : Command} {d : Option ClientRequest}
    (h : e.overwrite b c = .ok (e', d)) : e' = e.replaced b c := by
  unfold overwrite at h
  unfold replaced
  split at h
  · cases h
  · split at h <;> cases h <;> simp_all

/-! ## How entries change -/

/-- A chosen command stays; a vote gives way to a chosen command or to a vote under a higher
ballot. -/
structure Grows (e e' : LogEntry) : Prop where
  chosen : e.isCommitted = true →
    e'.isCommitted = true ∧ e'.ballot = e.ballot ∧ e'.command = e.command
  ballot : e'.isCommitted = false → e.ballot ≤ e'.ballot
  command : e'.isCommitted = false → e'.ballot = e.ballot → e'.command = e.command

/-- Entries that agree on command, ballot and status grow into each other. -/
theorem grows_of_eq {e e' : LogEntry} (hb : e'.ballot = e.ballot) (hc : e'.command = e.command)
    (hs : e'.isCommitted = e.isCommitted) : e.Grows e' :=
  ⟨fun h => ⟨hs.trans h, hb, hc⟩, fun _ => by rw [hb]; exact Std.le_refl _, fun _ _ => hc⟩

theorem grows_refl (e : LogEntry) : e.Grows e := grows_of_eq rfl rfl rfl

theorem Grows.trans {e₁ e₂ e₃ : LogEntry} (h : e₁.Grows e₂) (h' : e₂.Grows e₃) : e₁.Grows e₃ := by
  have hvote : e₃.isCommitted = false → e₂.isCommitted = false := by
    intro hc
    rw [← Bool.not_eq_true]
    intro hc₂
    exact absurd (hc.symm.trans (h'.chosen hc₂).1) (by simp)
  refine ⟨fun hc => ?_, fun hc => ?_, fun hc hb => ?_⟩
  · obtain ⟨hc₂, hb₂, hcmd₂⟩ := h.chosen hc
    obtain ⟨hc₃, hb₃, hcmd₃⟩ := h'.chosen hc₂
    exact ⟨hc₃, hb₃.trans hb₂, hcmd₃.trans hcmd₂⟩
  · exact Std.le_trans (h.ballot (hvote hc)) (h'.ballot hc)
  · -- the ballot in between is the same one
    have hb₂ : e₂.ballot = e₁.ballot :=
      Std.le_antisymm (hb ▸ h'.ballot hc) (h.ballot (hvote hc))
    rw [h'.command hc (hb.trans hb₂.symm), h.command (hvote hc) hb₂]

theorem grows_commit (e : LogEntry) : e.Grows e.commit :=
  ⟨fun _ => ⟨rfl, rfl, rfl⟩, fun h => (nomatch h), fun h => (nomatch h)⟩

theorem grows_join (r : PromisedEntry) (e : LogEntry) : e.Grows (join r (some e)) := by
  unfold join
  simp only
  split
  · exact grows_refl e
  · rename_i hc
    split
    · exact ⟨fun h => absurd h hc, fun h => by simp at h, fun h => by simp at h⟩
    · split
      · rename_i hlt
        refine ⟨fun h => absurd h hc, fun _ => ?_, fun _ heq => ?_⟩
        · rw [ballot_replaced]; exact Std.le_of_lt hlt
        · rw [ballot_replaced] at heq
          rw [heq] at hlt
          exact absurd hlt Std.lt_irrefl
      · exact grows_refl e

/-- A report does not touch a chosen command. -/
theorem join_of_chosen (r : PromisedEntry) {e : LogEntry} (h : e.isCommitted = true) :
    join r (some e) = e := if_pos h

/-- A slot that is reported as chosen is chosen after the report. -/
theorem isCommitted_join {r : PromisedEntry} (h : r.committed = true) (local? : Option LogEntry) :
    (join r local?).isCommitted = true := by
  unfold join
  cases local? with
  | none => simpa using h
  | some e =>
    simp only
    split
    · assumption
    · exact isCommitted_commit _

/-- A vote that a join leaves at a slot was there before or was reported. -/
theorem vote_of_join {r : PromisedEntry} {local? : Option LogEntry} {e : LogEntry}
    (h : join r local? = e) (hc : e.isCommitted = false) :
    local? = some e ∨ (r.committed = false ∧ e.ballot = r.ballot ∧ e.command = r.command ∧
      ∀ e₀, local? = some e₀ → e₀.isCommitted = false ∧ e₀.ballot < r.ballot) := by
  subst h
  unfold join at hc ⊢
  cases local? with
  | none => exact Or.inr ⟨by simpa using hc, by simp, by simp, by simp⟩
  | some e₀ =>
    simp only at hc ⊢
    split at hc
    · rename_i hcom
      rw [hc] at hcom
      cases hcom
    · rename_i hcom
      rw [if_neg hcom]
      split at hc
      · simp at hc
      · rename_i hr
        rw [if_neg hr]
        split
        · rename_i hlt
          exact Or.inr ⟨by simpa using hr, by simp, by simp,
            fun _ h => by cases h; exact ⟨by simpa using hcom, hlt⟩⟩
        · exact Or.inl rfl

/-- A chosen command that a join leaves at a slot was there before or was reported. -/
theorem chosen_of_join {r : PromisedEntry} {local? : Option LogEntry} {e : LogEntry}
    (h : join r local? = e) (hc : e.isCommitted = true) :
    local? = some e ∨ (r.committed = true ∧ e.command = r.command) := by
  subst h
  unfold join at hc ⊢
  cases local? with
  | none => exact Or.inr ⟨by simpa using hc, by simp⟩
  | some e₀ =>
    simp only at hc ⊢
    split at hc
    · rename_i hcom; rw [if_pos hcom]; exact Or.inl rfl
    · rename_i hcom
      rw [if_neg hcom]
      split at hc
      · rename_i hr
        rw [if_pos hr]
        exact Or.inr ⟨hr, by simp [commit]⟩
      · split at hc
        · simp_all
        · exact absurd hc hcom

end LogEntry

namespace Log

/-- A log starts with the sentinel. -/
theorem of_get?_empty {s : Slot} {e : LogEntry} (h : empty.get? s = some e) :
    s = Slot.sentinel ∧ e = .chosen Ballot.zero .noop := by
  rw [get?_empty] at h
  split at h
  · rename_i hs
    cases h
    exact ⟨hs, rfl⟩
  · cases h

/-! ## Joining reports into a log -/

/-- `log'` is `log` after a report on slot `s`. -/
structure Joined (log log' : Log) (s : Slot) (r : PromisedEntry) : Prop where
  get? : ∀ t, log'.get? t = if s = t then some (LogEntry.join r (log.get? s)) else log.get? t
  cursor : log'.executeCursor = log.executeCursor
  highest : log'.highestSlot = max log.highestSlot s

@[simp] theorem executeCursor_observe (log : Log) (s : Slot) :
    (log.observe s).executeCursor = log.executeCursor := by
  unfold observe; split <;> rfl

@[simp] theorem executeCursor_set (log : Log) (s : Slot) (e : LogEntry) :
    (log.set s e).executeCursor = log.executeCursor := rfl

@[simp] theorem highestSlot_set (log : Log) (s : Slot) (e : LogEntry) :
    (log.set s e).highestSlot = log.highestSlot := rfl

theorem le_highestSlot_observe (log : Log) (s : Slot) :
    log.highestSlot ≤ (log.observe s).highestSlot ∧ s ≤ (log.observe s).highestSlot := by
  unfold observe
  split
  · rename_i h; exact ⟨Std.le_of_lt h, Std.le_refl _⟩
  · rename_i h; exact ⟨Std.le_refl _, Std.not_lt.mp h⟩

theorem highestSlot_observe_of_le {log : Log} {s : Slot} (h : s ≤ log.highestSlot) :
    (log.observe s).highestSlot = log.highestSlot := by
  rw [observe, if_neg (Std.not_lt.mpr h)]

@[simp] theorem observe_observe (log : Log) (s : Slot) :
    (log.observe s).observe s = log.observe s := by
  unfold observe
  split <;> simp_all

/-- Storing the join at its slot is a join. -/
theorem joined_set {log : Log} {s : Slot} {r : PromisedEntry} {e : LogEntry}
    (h : e = LogEntry.join r (log.get? s)) : Joined log ((log.observe s).set s e) s r where
  get? t := by rw [get?_set, get?_observe, h]
  cursor := by simp
  highest := by simp [highestSlot_observe]

/-- A join that keeps the entry only makes the slot known. -/
theorem joined_observe {log : Log} {s : Slot} {r : PromisedEntry} {e : LogEntry}
    (he : log.get? s = some e) (h : e = LogEntry.join r (some e)) :
    Joined log (log.observe s) s r where
  get? t := by
    rw [get?_observe]
    split
    · rename_i hst; rw [← hst, he, ← h]
    · rfl
  cursor := by simp
  highest := highestSlot_observe log s

/-- A report makes its slot known and forgets none. -/
theorem Joined.highestSlot_le {log log' : Log} {s : Slot} {r : PromisedEntry}
    (h : Joined log log' s r) : log.highestSlot ≤ log'.highestSlot := by
  rw [h.highest, ← highestSlot_observe]
  exact (le_highestSlot_observe log s).1

/-- A slot without an entry takes a new one. -/
theorem insert_of_none {log : Log} {s : Slot} (h : log.get? s = none) (e : LogEntry) :
    log.insert s e = .ok ((log.observe s).set s e) := by
  simp [insert, h]

theorem joined_vote {log log' : Log} {s : Slot} {b : Ballot} {c : Command}
    {d : Option ClientRequest} (h : log.vote s b c = .ok (log', d)) :
    Joined log log' s ⟨c, b, false⟩ := by
  unfold vote at h
  simp only [get?_observe] at h
  split at h
  · rename_i hs
    rw [insert_of_none (by simpa using hs)] at h
    cases h
    simp only [observe_observe]
    exact joined_set (by simp [hs, LogEntry.join, LogEntry.reported])
  · rename_i e hs
    split at h
    · rename_i hc
      cases h
      exact joined_observe hs (by simp [LogEntry.join, hc])
    · rename_i hc
      split at h
      · rename_i hlt
        obtain ⟨⟨e', d'⟩, he, hr⟩ := map_eq_ok.mp h
        cases hr
        have := LogEntry.overwrite_eq_ok he
        exact joined_set (by simp [hs, LogEntry.join, hc, hlt, this])
      · rename_i hlt
        cases h
        exact joined_observe hs (by simp [LogEntry.join, hc, hlt])

theorem joined_learn {log log' : Log} {s : Slot} {b : Ballot} {c : Command}
    {d : Option ClientRequest} (h : log.learn s b c = .ok (log', d)) :
    Joined log log' s ⟨c, b, true⟩ := by
  unfold learn at h
  simp only [get?_observe] at h
  split at h
  · rename_i hs
    rw [insert_of_none (by simpa using hs)] at h
    cases h
    simp only [observe_observe]
    exact joined_set (by simp [hs, LogEntry.join, LogEntry.reported])
  · rename_i e hs
    split at h
    · rename_i hc
      cases h
      exact joined_observe hs (by simp [LogEntry.join, hc])
    · rename_i hc
      obtain ⟨⟨e', d'⟩, he, hr⟩ := map_eq_ok.mp h
      cases hr
      have := LogEntry.overwrite_eq_ok he
      exact joined_set (by simp [hs, LogEntry.join, hc, this])

/-- Nothing is ever learned about the sentinel; every other report is joined. -/
theorem joined_adopt {log log' : Log} {s : Slot} {r : PromisedEntry}
    {d : Option ClientRequest} (h : log.adopt s r = .ok (log', d)) :
    s = Slot.sentinel ∧ log' = log ∨ s ≠ Slot.sentinel ∧ Joined log log' s r := by
  unfold adopt at h
  split at h
  · rename_i hs
    cases h
    exact Or.inl ⟨hs, rfl⟩
  · rename_i hs
    obtain ⟨command, ballot, committed⟩ := r
    refine Or.inr ⟨hs, ?_⟩
    cases committed with
    | true => exact joined_learn (by simpa using h)
    | false => exact joined_vote (by simpa using h)

/-! ## Promises -/

/-- `log'` is `log` after reports on several slots. -/
structure Merged (log log' : Log) (reported : SlotMap PromisedEntry) : Prop where
  joined : ∀ s r, s ≠ Slot.sentinel → reported[s]? = some r →
    log'.get? s = some (LogEntry.join r (log.get? s))
  kept : ∀ s, s = Slot.sentinel ∨ reported[s]? = none → log'.get? s = log.get? s
  cursor : log'.executeCursor = log.executeCursor
  highest : log.highestSlot ≤ log'.highestSlot
  covers : ∀ s r, s ≠ Slot.sentinel → reported[s]? = some r → s ≤ log'.highestSlot

/-- One round of the loop of `merge`: a log, the requests handed out so far, and the next report. -/
def adoptNext (acc : Log × List ClientRequest) (p : Slot × PromisedEntry) :
    Except Fault (Log × List ClientRequest) :=
  (acc.1.adopt p.1 p.2).map fun r => (r.1, acc.2 ++ r.2.toList)

/-- The loop of `merge` over a list of reports, each slot named once. -/
theorem merge_list {l : List (Slot × PromisedEntry)} (hl : (l.map Prod.fst).Nodup)
    {log log' : Log} {d d' : List ClientRequest}
    (h : l.foldlM adoptNext (log, d) = .ok (log', d')) :
    (∀ s r, s ≠ Slot.sentinel → (s, r) ∈ l →
      log'.get? s = some (LogEntry.join r (log.get? s)) ∧ s ≤ log'.highestSlot) ∧
    (∀ s, s = Slot.sentinel ∨ s ∉ l.map Prod.fst → log'.get? s = log.get? s) ∧
    log'.executeCursor = log.executeCursor ∧ log.highestSlot ≤ log'.highestSlot := by
  induction l generalizing log d with
  | nil => cases h; exact ⟨by simp, by simp, rfl, Std.le_refl _⟩
  | cons p l ih =>
    obtain ⟨t, q⟩ := p
    rw [List.map_cons, List.nodup_cons] at hl
    rw [List.foldlM_cons] at h
    obtain ⟨⟨log₁, d₁⟩, h₁, h₂⟩ := bind_eq_ok.mp h
    obtain ⟨⟨log₂, request⟩, ha, hr⟩ := map_eq_ok.mp h₁
    cases hr
    obtain ⟨hin, hout, hcur, hhigh⟩ := ih hl.2 h₂
    rcases joined_adopt ha with ⟨rfl, rfl⟩ | ⟨ht, hj⟩
    · refine ⟨fun s r hs hm => ?_, fun s hs => hout s ?_, hcur, hhigh⟩
      · rcases List.mem_cons.mp hm with heq | hm
        · cases heq; exact absurd rfl hs
        · exact hin s r hs hm
      · exact hs.imp_right fun h hm => h (List.mem_cons_of_mem _ hm)
    · have hle : log.highestSlot ≤ log₂.highestSlot ∧ t ≤ log₂.highestSlot := by
        rw [hj.highest]
        show _ ≤ (if log.highestSlot ≤ t then t else log.highestSlot) ∧
          _ ≤ (if log.highestSlot ≤ t then t else log.highestSlot)
        split <;> grind
      refine ⟨fun s r hs hm => ?_, fun s hs => ?_, hcur.trans hj.cursor, by grind⟩
      · rcases List.mem_cons.mp hm with heq | hm
        · cases heq
          rw [hout t (Or.inr hl.1), hj.get?, if_pos rfl]
          exact ⟨rfl, by grind⟩
        · have hne : t ≠ s := by
            rintro rfl
            exact hl.1 (List.mem_map.mpr ⟨_, hm, rfl⟩)
          have := hin s r hs hm
          rw [hj.get?, if_neg hne] at this
          exact this
      · have hne : t ≠ s := by
          rintro rfl
          exact hs.elim ht fun h => h (by simp)
        rw [hout s (hs.imp_right fun h hm => h (List.mem_cons_of_mem _ hm)), hj.get?, if_neg hne]

/-- **Folding in a promise** joins every reported slot but the sentinel. -/
theorem merged_merge {log log' : Log} {reported : SlotMap PromisedEntry}
    {d : List ClientRequest} (h : log.merge reported = .ok (log', d)) :
    Merged log log' reported := by
  obtain ⟨hin, hout, hcur, hhigh⟩ := merge_list (d := []) (SlotMap.nodup_keys reported) h
  have hmem : ∀ {s r}, reported[s]? = some r → (s, r) ∈ reported.toList := fun h =>
    Std.ExtTreeMap.mem_toList_iff_getElem?_eq_some.mpr h
  refine ⟨fun s r hs hr => (hin s r hs (hmem hr)).1, fun s hs => hout s (hs.imp_right ?_), hcur,
    hhigh, fun s r hs hr => (hin s r hs (hmem hr)).2⟩
  intro hn hm
  obtain ⟨⟨s', r⟩, hr, rfl⟩ := List.mem_map.mp hm
  rw [Std.ExtTreeMap.mem_toList_iff_getElem?_eq_some] at hr
  rw [hr] at hn
  cases hn

/-- A promise changes nothing if none of its reports does. -/
theorem merge_of_settled {log : Log} {reported : SlotMap PromisedEntry}
    (h : ∀ s r, reported[s]? = some r → log.adopt s r = .ok (log, none)) :
    log.merge reported = .ok (log, []) := by
  have hsettled : ∀ p ∈ reported.toList, log.adopt p.1 p.2 = .ok (log, none) := fun p hp =>
    h p.1 p.2 (Std.ExtTreeMap.mem_toList_iff_getElem?_eq_some.mp hp)
  suffices hlist : ∀ l : List (Slot × PromisedEntry),
      (∀ p ∈ l, log.adopt p.1 p.2 = .ok (log, none)) →
      l.foldlM adoptNext (log, []) = .ok (log, []) from hlist _ hsettled
  intro l hl
  induction l with
  | nil => rfl
  | cons p l ih =>
    obtain ⟨hp, hl⟩ := List.forall_mem_cons.mp hl
    have hnext : adoptNext (log, []) p = .ok (log, []) := by
      simp only [adoptNext, hp]
      rfl
    rw [List.foldlM_cons, hnext]
    exact ih hl

/-- A promise that reports nothing but the sentinel changes nothing. -/
theorem merge_of_silent {reported : SlotMap PromisedEntry}
    (h : ∀ s r, reported[s]? = some r → s = Slot.sentinel) (log : Log) :
    log.merge reported = .ok (log, []) :=
  merge_of_settled fun s r hr => if_pos (h s r hr)

/-- What the join of every report keeps, folding in a promise keeps. -/
theorem merge_induction {P : Log → Prop} {reported : SlotMap PromisedEntry}
    (hjoin : ∀ {log log' s r}, reported[s]? = some r → Joined log log' s r → P log → P log')
    {log log' : Log} {d : List ClientRequest} (h : log.merge reported = .ok (log', d))
    (hlog : P log) : P log' := by
  suffices hlist : ∀ (l : List (Slot × PromisedEntry)) (acc acc' : Log × List ClientRequest),
      (∀ p ∈ l, reported[p.1]? = some p.2) → l.foldlM adoptNext acc = .ok acc' → P acc.1 →
        P acc'.1 from
    hlist _ _ _ (fun p hp => Std.ExtTreeMap.mem_toList_iff_getElem?_eq_some.mp hp) h hlog
  intro l
  induction l with
  | nil => intro acc acc' _ h hacc; cases h; exact hacc
  | cons p l ih =>
    intro acc acc' hl h hacc
    obtain ⟨hp, hl⟩ := List.forall_mem_cons.mp hl
    rw [List.foldlM_cons] at h
    obtain ⟨acc₁, h₁, h₂⟩ := bind_eq_ok.mp h
    obtain ⟨⟨log₁, request⟩, ha, rfl⟩ := map_eq_ok.mp h₁
    refine ih _ _ hl h₂ ?_
    rcases joined_adopt ha with ⟨-, heq⟩ | ⟨-, hj⟩
    · exact heq ▸ hacc
    · exact hjoin hp hj hacc

theorem max_first_le {start s : Slot} (hs : start ≤ s) (hfirst : Slot.first ≤ s) :
    max start Slot.first ≤ s := by
  show (if start ≤ Slot.first then Slot.first else start) ≤ s
  split
  · exact hfirst
  · exact hs

/-- **What a promise reports**: the entries from the asked slot on, without the sentinel. -/
theorem getElem?_promised (log : Log) (start s : Slot) :
    (log.promised start)[s]? =
      if max start Slot.first ≤ s ∧ s ≤ log.highestSlot then (log.get? s).map LogEntry.promised
      else none := by
  unfold promised get?
  rw [Std.ExtTreeMap.getElem?_map, Std.ExtTreeMap.getElem?_filter']
  split
  · rename_i h
    cases log.entries[s]? <;> simp [Option.filter, h]
  · rename_i h
    cases log.entries[s]? <;> simp [Option.filter, h]

/-! ## What a vote leaves behind -/

/-- Slot `s` holds `e`, which is not known to be chosen. -/
structure Open (log : Log) (s : Slot) (e : LogEntry) : Prop where
  entry : log.get? s = some e
  vote : e.isCommitted = false

/-- A log starts without votes. -/
theorem not_open_empty {s : Slot} {e : LogEntry} : ¬ empty.Open s e := by
  rintro ⟨he, hc⟩
  obtain ⟨-, rfl⟩ := of_get?_empty he
  cases hc

/-- A trace of a vote for `c` at slot `s` under `b`: the slot's command is chosen, or was voted for
under a ballot that is not lower, and is `c` if that ballot is `b`. -/
def Recalls (log : Log) (s : Slot) (b : Ballot) (c : Command) : Prop :=
  ∃ e, log.get? s = some e ∧ (e.isCommitted = true ∨ b ≤ e.ballot ∧ (e.ballot = b → e.command = c))

/-- Entries only grow, and the cursor only moves on. -/
structure Grows (log log' : Log) : Prop where
  entry : ∀ s e, log.get? s = some e → ∃ e', log'.get? s = some e' ∧ e.Grows e'
  cursor : log.executeCursor ≤ log'.executeCursor

theorem grows_refl (log : Log) : log.Grows log :=
  ⟨fun _ e he => ⟨e, he, e.grows_refl⟩, Std.le_refl _⟩

theorem Grows.trans {log₁ log₂ log₃ : Log} (h : log₁.Grows log₂) (h' : log₂.Grows log₃) :
    log₁.Grows log₃ where
  entry s e he := by
    obtain ⟨e₂, he₂, hg₂⟩ := h.entry s e he
    obtain ⟨e₃, he₃, hg₃⟩ := h'.entry s e₂ he₂
    exact ⟨e₃, he₃, hg₂.trans hg₃⟩
  cursor := Std.le_trans h.cursor h'.cursor

/-- A log that grows keeps every trace of a vote. -/
theorem Recalls.grows {log log' : Log} (hg : log.Grows log') {s : Slot} {b : Ballot} {c : Command}
    (h : log.Recalls s b c) : log'.Recalls s b c := by
  obtain ⟨e, he, hv⟩ := h
  obtain ⟨e', he', hge⟩ := hg.entry s e he
  refine ⟨e', he', ?_⟩
  cases hc' : e'.isCommitted with
  | true => exact Or.inl rfl
  | false =>
    rcases hv with hc | ⟨hle, hcmd⟩
    · rw [(hge.chosen hc).1] at hc'
      cases hc'
    · have hb := hge.ballot hc'
      refine Or.inr ⟨Std.le_trans hle hb, fun heq => ?_⟩
      have heb : e.ballot = b := by grind
      rw [hge.command hc' (heq.trans heb.symm), hcmd heb]

/-- An entry gives way to one that it grows into. -/
theorem grows_set {log : Log} {s : Slot} {e e' : LogEntry} (hs : log.get? s = some e)
    (hg : e.Grows e') : log.Grows (log.set s e') where
  entry t f hf := by
    rw [get?_set]
    split
    · rename_i hst
      subst hst
      rw [hs] at hf
      cases hf
      exact ⟨e', rfl, hg⟩
    · exact ⟨f, hf, f.grows_refl⟩
  cursor := by simp [Std.le_refl]

/-- A slot without an entry takes any. -/
theorem grows_insert {log : Log} {s : Slot} (hs : log.get? s = none) (e : LogEntry) :
    log.Grows ((log.observe s).set s e) where
  entry t f hf := by
    rw [get?_set, get?_observe]
    split
    · rename_i hst
      rw [← hst, hs] at hf
      cases hf
    · exact ⟨f, hf, f.grows_refl⟩
  cursor := by simp [Std.le_refl]

theorem Joined.chosen {log log' : Log} {s t : Slot} {r : PromisedEntry} {e : LogEntry}
    (h : Joined log log' s r) (ht : log.get? t = some e) (hc : e.isCommitted = true) :
    log'.get? t = some e := by
  rw [h.get?]
  split
  · rename_i hst; rw [hst, ht, LogEntry.join_of_chosen r hc]
  · exact ht

theorem Merged.chosen {log log' : Log} {reported : SlotMap PromisedEntry} {t : Slot}
    {e : LogEntry} (h : Merged log log' reported) (ht : log.get? t = some e)
    (hc : e.isCommitted = true) : log'.get? t = some e := by
  by_cases hs : t = Slot.sentinel ∨ reported[t]? = none
  · rw [h.kept t hs, ht]
  · obtain ⟨hs, hr⟩ := not_or.mp hs
    obtain ⟨r, hr⟩ := Option.ne_none_iff_exists'.mp hr
    rw [h.joined t r hs hr, ht, LogEntry.join_of_chosen r hc]

theorem Joined.grows {log log' : Log} {s : Slot} {r : PromisedEntry} (h : Joined log log' s r) :
    log.Grows log' where
  entry t e he := by
    rw [h.get?]
    split
    · rename_i hst
      rw [hst, he]
      exact ⟨_, rfl, LogEntry.grows_join r e⟩
    · exact ⟨e, he, e.grows_refl⟩
  cursor := by rw [h.cursor]; exact Std.le_refl _

theorem Merged.grows {log log' : Log} {reported : SlotMap PromisedEntry}
    (h : Merged log log' reported) : log.Grows log' where
  entry t e he := by
    by_cases ht : t = Slot.sentinel ∨ reported[t]? = none
    · exact ⟨e, by rw [h.kept t ht, he], e.grows_refl⟩
    · obtain ⟨r, hr⟩ := Option.ne_none_iff_exists'.mp fun hn => ht (Or.inr hn)
      rw [h.joined t r (fun hs => ht (Or.inl hs)) hr, he]
      exact ⟨_, rfl, LogEntry.grows_join r e⟩
  cursor := by rw [h.cursor]; exact Std.le_refl _

/-- A trace of a vote in a report, as in `Recalls`. -/
def ReportRecalls (reported : SlotMap PromisedEntry) (s : Slot) (b : Ballot) (c : Command) : Prop :=
  ∃ r, reported[s]? = some r ∧ (r.committed = true ∨ b ≤ r.ballot ∧ (r.ballot = b → r.command = c))

/-- A promise reports every trace of a vote from the asked slot on. -/
theorem Recalls.promised {log : Log} {s start : Slot} {b : Ballot} {c : Command}
    (h : log.Recalls s b c) (hstart : max start Slot.first ≤ s) (hhigh : s ≤ log.highestSlot) :
    ReportRecalls (log.promised start) s b c := by
  obtain ⟨e, he, hv⟩ := h
  exact ⟨e.promised, by rw [getElem?_promised, if_pos ⟨hstart, hhigh⟩, he]; rfl, hv⟩

/-- A join takes over the trace of a vote. A vote of the log itself under the same ballot must be
for the same command. -/
theorem recalls_of_join {log log' : Log} {s : Slot} {r : PromisedEntry} {b : Ballot} {c : Command}
    (h : log'.get? s = some (LogEntry.join r (log.get? s)))
    (hr : r.committed = true ∨ b ≤ r.ballot ∧ (r.ballot = b → r.command = c))
    (hsame : ∀ e, log.get? s = some e → e.isCommitted = false → e.ballot = b → e.command = c) :
    log'.Recalls s b c := by
  refine ⟨_, h, ?_⟩
  unfold LogEntry.join
  cases he : log.get? s with
  | none => simpa using hr
  | some e =>
    simp only
    split
    · rename_i hc; exact Or.inl hc
    · rename_i hc
      split
      · exact Or.inl rfl
      · rename_i hrc
        obtain ⟨hle, hcmd⟩ := hr.resolve_left hrc
        split
        · exact Or.inr ⟨by simpa using hle, by simpa using hcmd⟩
        · exact Or.inr ⟨by grind, hsame e he (by simpa using hc)⟩

theorem Joined.recalls {log log' : Log} {s : Slot} {b : Ballot} {c : Command}
    (h : Joined log log' s ⟨c, b, false⟩)
    (hsame : ∀ e, log.get? s = some e → e.isCommitted = false → e.ballot = b → e.command = c) :
    log'.Recalls s b c :=
  recalls_of_join (by rw [h.get?, if_pos rfl]) (Or.inr ⟨Std.le_refl _, fun _ => rfl⟩) hsame

theorem Merged.recalls {log log' : Log} {reported : SlotMap PromisedEntry}
    (h : Merged log log' reported) {s : Slot} {b : Ballot} {c : Command}
    (hs : s ≠ Slot.sentinel) (hr : ReportRecalls reported s b c)
    (hsame : ∀ e, log.get? s = some e → e.isCommitted = false → e.ballot = b → e.command = c) :
    log'.Recalls s b c := by
  obtain ⟨r, hrs, hv⟩ := hr
  exact recalls_of_join (h.joined s r hs hrs) hv hsame

end Log

end PaxosLog
