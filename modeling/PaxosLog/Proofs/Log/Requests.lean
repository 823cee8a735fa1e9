import Mathlib.Data.List.Nodup
import PaxosLog.Proofs.Log.Join

/-!
# Requests in a log

A request is in a log as long as an entry owns it. The operations that take up what peers report
create entries without a request, and replace entries, whose requests they hand out: what is in the
log before is in it afterwards or among the requests handed out.

* `requests_set`: an entry comes with its request, and the one that it replaces goes with its own.
* `requests_vote`, `requests_learn`, `requests_merge`: no request gets lost.
* `Owning`: every entry that owns a request holds its command.
* `AddsUnowned`: the entries at new slots own no request.
* `Sheds`: no entry at all owns a request that it did not own before.
-/

namespace PaxosLog

open scoped List

namespace SlotMap

variable {α : Type}

/-- A map is one of its pairs and the rest. -/
theorem perm_cons_erase {m : SlotMap α} {s : Slot} {a : α} (h : m[s]? = some a) :
    m.toList ~ (s, a) :: (m.erase s).toList := by
  have hout : (s, a) ∉ (m.erase s).toList := by
    rw [Std.ExtTreeMap.mem_toList_iff_getElem?_eq_some, Std.ExtTreeMap.getElem?_erase_self]
    simp
  have hnodup := fun m : SlotMap α => List.Nodup.of_map Prod.fst (nodup_keys m)
  refine (List.perm_ext_iff_of_nodup (hnodup m)
    (List.nodup_cons.mpr ⟨hout, hnodup _⟩)).mpr fun p => ?_
  obtain ⟨t, b⟩ := p
  rw [List.mem_cons, Std.ExtTreeMap.mem_toList_iff_getElem?_eq_some,
    Std.ExtTreeMap.mem_toList_iff_getElem?_eq_some, Std.ExtTreeMap.getElem?_erase]
  by_cases hst : s = t
  · subst hst
    simp [h, eq_comm]
  · simp [hst, Ne.symm hst]

end SlotMap

namespace LogEntry

/-- An entry that appears with a report owns no request. -/
theorem request_join_none (r : PromisedEntry) : (join r none).request = none := by
  show (reported r).request = none
  unfold reported
  split <;> rfl

/-- After a report an entry owns no request, or the same one and for the same command. -/
theorem request_join_some (r : PromisedEntry) (e : LogEntry) :
    (join r (some e)).request = none ∨
      (join r (some e)).request = e.request ∧ (join r (some e)).command = e.command := by
  unfold join replaced commit
  grind

/-- Replacing a vote hands out its request unless it keeps it. -/
theorem requests_overwrite {e e' : LogEntry} {b : Ballot} {c : Command} {d : Option ClientRequest}
    (h : e.overwrite b c = .ok (e', d)) :
    e'.request.toList ++ d.toList = e.request.toList := by
  unfold overwrite at h
  split at h
  · cases h
  · split at h
    · cases h; exact List.append_nil _
    · cases h; rfl

end LogEntry

namespace Log

/-- The request that the entry at a slot owns, if there is one. -/
def requestAt (log : Log) (s : Slot) : List ClientRequest :=
  ((log.get? s).bind LogEntry.request).toList

/-- The requests that entries at other slots own. -/
def requestsBut (log : Log) (s : Slot) : List ClientRequest :=
  (log.entries.erase s).toList.filterMap fun (_, e) => e.request

theorem mem_requests {log : Log} {s : Slot} {e : LogEntry} {r : ClientRequest}
    (he : log.get? s = some e) (hr : e.request = some r) : r ∈ log.requests :=
  List.mem_filterMap.mpr ⟨(s, e), Std.ExtTreeMap.mem_toList_iff_getElem?_eq_some.mpr he, hr⟩

theorem requests_perm (log : Log) (s : Slot) :
    log.requests ~ log.requestAt s ++ log.requestsBut s := by
  unfold requests requestAt requestsBut get?
  cases he : log.entries[s]? with
  | none =>
    have hsame : log.entries.erase s = log.entries := by
      ext t
      rw [Std.ExtTreeMap.getElem?_erase]
      by_cases hst : s = t
      · simp [← hst, he]
      · simp [hst]
    rw [hsame]
    rfl
  | some e =>
    refine ((SlotMap.perm_cons_erase he).filterMap _).trans ?_
    cases hr : e.request <;> simp [hr]

/-- An entry comes with its request, and the one that it replaces goes with its own. -/
theorem requests_set (log : Log) (s : Slot) (e : LogEntry) :
    log.requestAt s ++ (log.set s e).requests ~ e.request.toList ++ log.requests := by
  have hrest : (log.set s e).requestsBut s = log.requestsBut s := by
    have hsame : (log.entries.insert s e).erase s = log.entries.erase s := by
      ext t
      rw [Std.ExtTreeMap.getElem?_erase, Std.ExtTreeMap.getElem?_erase,
        Std.ExtTreeMap.getElem?_insert]
      by_cases hst : s = t
      · simp [hst]
      · simp [hst]
    unfold requestsBut set
    rw [hsame]
  have hat : (log.set s e).requestAt s = e.request.toList := by
    rw [requestAt, get?_set, if_pos rfl, Option.bind_some]
  calc log.requestAt s ++ (log.set s e).requests
      ~ log.requestAt s ++ (e.request.toList ++ log.requestsBut s) :=
        .append_left _ ((requests_perm _ s).trans (by rw [hrest, hat]))
    _ ~ e.request.toList ++ (log.requestAt s ++ log.requestsBut s) := by
        rw [← List.append_assoc, ← List.append_assoc]
        exact List.perm_append_comm.append_right _
    _ ~ e.request.toList ++ log.requests := .append_left _ (requests_perm log s).symm

/-- A new entry comes with its request. -/
theorem requests_set_of_none {log : Log} {s : Slot} (hs : log.get? s = none) (e : LogEntry) :
    (log.set s e).requests ~ e.request.toList ++ log.requests := by
  simpa [requestAt, hs] using requests_set log s e

/-- An entry replaced by one that owns the same request. -/
theorem requests_set_of_eq {log : Log} {s : Slot} {e₀ e : LogEntry} (hs : log.get? s = some e₀)
    (hr : e.request = e₀.request) : (log.set s e).requests ~ log.requests := by
  have h := requests_set log s e
  rw [requestAt, hs, Option.bind_some, hr] at h
  exact (List.perm_append_left_iff _).mp h

@[simp] theorem requests_observe (log : Log) (s : Slot) :
    (log.observe s).requests = log.requests := by
  unfold observe requests
  split <;> rfl

/-! ## Reports -/

/-- An overwritten entry, with its request in the log or handed out. -/
theorem requests_overwrite {log : Log} {s : Slot} {b : Ballot} {c : Command} {e₀ e : LogEntry}
    {d : Option ClientRequest} (hs : log.get? s = some e₀) (h : e₀.overwrite b c = .ok (e, d))
    (e' : LogEntry) (he : e'.request = e.request) :
    (log.set s e').requests ++ d.toList ~ log.requests := by
  have hset := requests_set log s e'
  rw [requestAt, hs, Option.bind_some, ← LogEntry.requests_overwrite h, he,
    List.append_assoc, List.perm_append_left_iff] at hset
  exact List.perm_append_comm.trans hset

theorem requests_vote {log log' : Log} {s : Slot} {b : Ballot} {c : Command}
    {d : Option ClientRequest} (h : log.vote s b c = .ok (log', d)) :
    log'.requests ++ d.toList ~ log.requests := by
  unfold vote at h
  simp only [get?_observe] at h
  split at h
  · rename_i hs
    rw [insert_of_none (by simpa using hs)] at h
    cases h
    simpa [LogEntry.vote] using requests_set_of_none ((get?_observe log s s).trans hs) (.vote b c)
  · rename_i e hs
    have hs : (log.observe s).get? s = some e := (get?_observe log s s).trans hs
    split at h
    · cases h; simp
    · split at h
      · obtain ⟨⟨e', d'⟩, he, hr⟩ := map_eq_ok.mp h
        cases hr
        simpa using requests_overwrite hs he e' rfl
      · cases h; simp

theorem requests_learn {log log' : Log} {s : Slot} {b : Ballot} {c : Command}
    {d : Option ClientRequest} (h : log.learn s b c = .ok (log', d)) :
    log'.requests ++ d.toList ~ log.requests := by
  unfold learn at h
  simp only [get?_observe] at h
  split at h
  · rename_i hs
    rw [insert_of_none (by simpa using hs)] at h
    cases h
    simpa [LogEntry.chosen] using
      requests_set_of_none ((get?_observe log s s).trans hs) (.chosen b c)
  · rename_i e hs
    have hs : (log.observe s).get? s = some e := (get?_observe log s s).trans hs
    split at h
    · cases h; simp
    · obtain ⟨⟨e', d'⟩, he, hr⟩ := map_eq_ok.mp h
      cases hr
      simpa using requests_overwrite hs he e'.commit rfl

theorem requests_adopt {log log' : Log} {s : Slot} {r : PromisedEntry} {d : Option ClientRequest}
    (h : log.adopt s r = .ok (log', d)) : log'.requests ++ d.toList ~ log.requests := by
  unfold adopt at h
  split at h
  · cases h; simp
  · split at h
    · exact requests_learn h
    · exact requests_vote h

/-- **A promise takes no request**: it is in the log or handed out. -/
theorem requests_merge {log log' : Log} {reported : SlotMap PromisedEntry}
    {d : List ClientRequest} (h : log.merge reported = .ok (log', d)) :
    log'.requests ++ d ~ log.requests := by
  suffices hlist : ∀ (l : List (Slot × PromisedEntry)) (acc acc' : Log × List ClientRequest),
      l.foldlM adoptNext acc = .ok acc' →
        acc'.1.requests ++ acc'.2 ~ acc.1.requests ++ acc.2 by
    simpa using hlist reported.toList (log, []) (log', d) h
  intro l
  induction l with
  | nil => intro acc acc' h; cases h; exact .refl _
  | cons p l ih =>
    intro acc acc' h
    rw [List.foldlM_cons] at h
    obtain ⟨acc₁, h₁, h₂⟩ := bind_eq_ok.mp h
    obtain ⟨⟨log₁, request⟩, ha, rfl⟩ := map_eq_ok.mp h₁
    calc acc'.1.requests ++ acc'.2
        ~ log₁.requests ++ (acc.2 ++ request.toList) := ih _ _ h₂
      _ ~ (log₁.requests ++ request.toList) ++ acc.2 := by
          rw [List.append_assoc]
          exact List.perm_append_comm.append_left _
      _ ~ acc.1.requests ++ acc.2 := .append_right _ (requests_adopt ha)

/-! ## Owners -/

/-- Every entry that owns a request holds its command. -/
def Owning (log : Log) : Prop :=
  ∀ s e r, log.get? s = some e → e.request = some r → e.command = .client r.command

theorem owning_empty : empty.Owning := by
  intro s e r he hr
  obtain ⟨-, rfl⟩ := of_get?_empty he
  cases hr

theorem Owning.set {log : Log} (h : log.Owning) (s : Slot) {e : LogEntry}
    (he : ∀ r, e.request = some r → e.command = .client r.command) : (log.set s e).Owning := by
  intro t f r hf hr
  rw [get?_set] at hf
  split at hf
  · cases hf; exact he r hr
  · exact h t f r hf hr

/-- An entry that a report leaves behind owns no request or the one from before, whose command it
still holds. -/
theorem Owning.join {log : Log} (h : log.Owning) {s : Slot} {r : PromisedEntry}
    {q : ClientRequest} (hq : (LogEntry.join r (log.get? s)).request = some q) :
    (LogEntry.join r (log.get? s)).command = .client q.command := by
  cases hs : log.get? s with
  | none =>
    rw [hs, LogEntry.request_join_none] at hq
    cases hq
  | some e =>
    rw [hs] at hq
    rcases LogEntry.request_join_some r e with heq | ⟨heq, hcmd⟩
    · rw [heq] at hq; cases hq
    · rw [hcmd]
      exact h s e q hs (heq.symm.trans hq)

theorem Owning.joined {log log' : Log} (h : log.Owning) {s : Slot} {r : PromisedEntry}
    (hj : Joined log log' s r) : log'.Owning := by
  intro t e q he hq
  rw [hj.get?] at he
  split at he
  · cases he; exact h.join hq
  · exact h t e q he hq

theorem Owning.merged {log log' : Log} (h : log.Owning) {reported : SlotMap PromisedEntry}
    (hj : Merged log log' reported) : log'.Owning := by
  intro s e q he hq
  by_cases hr : s = Slot.sentinel ∨ reported[s]? = none
  · rw [hj.kept s hr] at he; exact h s e q he hq
  · obtain ⟨hne, hr⟩ := not_or.mp hr
    obtain ⟨r, hr⟩ := Option.ne_none_iff_exists'.mp hr
    rw [hj.joined s r hne hr] at he
    cases he
    exact h.join hq

/-! ## Outstanding votes -/

theorem hasOwnedUncommitted_iff {log : Log} :
    log.hasOwnedUncommitted = true ↔ ∃ s e, log.get? s = some e ∧ log.executeCursor ≤ s ∧
      e.isCommitted = false ∧ e.request.isSome = true := by
  unfold hasOwnedUncommitted get?
  rw [List.any_eq_true]
  constructor
  · rintro ⟨⟨s, e⟩, hmem, h⟩
    rw [Std.ExtTreeMap.mem_toList_iff_getElem?_eq_some] at hmem
    simp only [Bool.and_eq_true, decide_eq_true_eq, Bool.not_eq_true'] at h
    exact ⟨s, e, hmem, h.1.1, h.1.2, h.2⟩
  · rintro ⟨s, e, hget, hle, hc, hr⟩
    exact ⟨(s, e), Std.ExtTreeMap.mem_toList_iff_getElem?_eq_some.mpr hget, by simp [hle, hc, hr]⟩

/-- Every vote of `log'` that owns a request is one of `log`, and no slot comes back. -/
structure Lightens (log log' : Log) : Prop where
  entry : ∀ s e', log'.get? s = some e' → e'.isCommitted = false → e'.request.isSome = true →
    ∃ e, log.get? s = some e ∧ e.isCommitted = false ∧ e.request.isSome = true
  cursor : log.executeCursor ≤ log'.executeCursor

theorem lightens_refl (log : Log) : log.Lightens log :=
  ⟨fun _ e he hc hr => ⟨e, he, hc, hr⟩, Std.le_refl _⟩

theorem Lightens.trans {log₁ log₂ log₃ : Log} (h : log₁.Lightens log₂) (h' : log₂.Lightens log₃) :
    log₁.Lightens log₃ where
  entry s e he hc hr := by
    obtain ⟨e', he', hc', hr'⟩ := h'.entry s e he hc hr
    exact h.entry s e' he' hc' hr'
  cursor := Std.le_trans h.cursor h'.cursor

theorem Lightens.hasOwnedUncommitted {log log' : Log} (h : log.Lightens log')
    (hw : log'.hasOwnedUncommitted = true) : log.hasOwnedUncommitted = true := by
  obtain ⟨s, e', he', hle, hc', hr'⟩ := hasOwnedUncommitted_iff.mp hw
  obtain ⟨e, he, hc, hr⟩ := h.entry s e' he' hc' hr'
  exact hasOwnedUncommitted_iff.mpr ⟨s, e, he, Std.le_trans h.cursor hle, hc, hr⟩

/-- A vote that a report leaves behind with a request was there with it. -/
theorem Lightens.join {log : Log} {s : Slot} {r : PromisedEntry}
    (hc : (LogEntry.join r (log.get? s)).isCommitted = false)
    (hr : (LogEntry.join r (log.get? s)).request.isSome = true) :
    ∃ e, log.get? s = some e ∧ e.isCommitted = false ∧ e.request.isSome = true := by
  cases hs : log.get? s with
  | none => rw [hs, LogEntry.request_join_none] at hr; cases hr
  | some e =>
    rw [hs] at hc hr
    refine ⟨e, rfl, ?_, ?_⟩
    · cases hec : e.isCommitted with
      | false => rfl
      | true => rw [LogEntry.join_of_chosen r hec, hec] at hc; cases hc
    · rcases LogEntry.request_join_some r e with heq | ⟨heq, -⟩
      · rw [heq] at hr; cases hr
      · rwa [heq] at hr

theorem Joined.lightens {log log' : Log} {s : Slot} {r : PromisedEntry}
    (h : Joined log log' s r) : log.Lightens log' where
  entry t e he hc hr := by
    rw [h.get?] at he
    split at he
    · rename_i hst
      subst hst
      cases he
      exact Lightens.join hc hr
    · exact ⟨e, he, hc, hr⟩
  cursor := by rw [h.cursor]; exact Std.le_refl _

theorem Merged.lightens {log log' : Log} {reported : SlotMap PromisedEntry}
    (h : Merged log log' reported) : log.Lightens log' where
  entry s e he hc hr := by
    by_cases hk : s = Slot.sentinel ∨ reported[s]? = none
    · rw [h.kept s hk] at he; exact ⟨e, he, hc, hr⟩
    · obtain ⟨hne, hk⟩ := not_or.mp hk
      obtain ⟨r, hk⟩ := Option.ne_none_iff_exists'.mp hk
      rw [h.joined s r hne hk] at he
      cases he
      exact Lightens.join hc hr
  cursor := by rw [h.cursor]; exact Std.le_refl _

/-! ## New entries -/

/-- The entries of `log'` at slots where `log` has none own no request. -/
def AddsUnowned (log log' : Log) : Prop :=
  ∀ s e, log.get? s = none → log'.get? s = some e → e.request = none

theorem addsUnowned_refl (log : Log) : log.AddsUnowned log := by
  intro s e hs he
  rw [hs] at he
  cases he

theorem addsUnowned_set {log : Log} {s : Slot} {e₀ : LogEntry} (hs : log.get? s = some e₀)
    (e : LogEntry) : log.AddsUnowned (log.set s e) := by
  intro t f ht hf
  rw [get?_set] at hf
  split at hf
  · rename_i hst; rw [← hst, hs] at ht; cases ht
  · rw [ht] at hf; cases hf

theorem Joined.addsUnowned {log log' : Log} {s : Slot} {r : PromisedEntry}
    (h : Joined log log' s r) : log.AddsUnowned log' := by
  intro t e ht he
  rw [h.get?] at he
  split at he
  · rename_i hst
    rw [hst, ht] at he
    cases he
    exact LogEntry.request_join_none r
  · rw [ht] at he; cases he

theorem Merged.addsUnowned {log log' : Log} {reported : SlotMap PromisedEntry}
    (h : Merged log log' reported) : log.AddsUnowned log' := by
  intro s e hs he
  by_cases hr : s = Slot.sentinel ∨ reported[s]? = none
  · rw [h.kept s hr, hs] at he; cases he
  · obtain ⟨hne, hr⟩ := not_or.mp hr
    obtain ⟨r, hr⟩ := Option.ne_none_iff_exists'.mp hr
    rw [h.joined s r hne hr, hs] at he
    cases he
    exact LogEntry.request_join_none r

/-! ## Requests that leave -/

/-- What entries of `log'` own, the entries of `log` at the same slots owned. -/
def Sheds (log log' : Log) : Prop :=
  ∀ s e' q, log'.get? s = some e' → e'.request = some q →
    ∃ e, log.get? s = some e ∧ e.request = some q

theorem sheds_refl (log : Log) : log.Sheds log := fun _ e _ he hq => ⟨e, he, hq⟩

/-- An entry is replaced by one that owns nothing, or the same request. -/
theorem sheds_set {log : Log} {s : Slot} {e₀ e : LogEntry} (hs : log.get? s = some e₀)
    (he : e.request = none ∨ e.request = e₀.request) : log.Sheds (log.set s e) := by
  intro t f q hf hq
  rw [get?_set] at hf
  split at hf
  · rename_i hst
    subst hst
    cases hf
    rcases he with hnone | hsame
    · rw [hnone] at hq; cases hq
    · exact ⟨e₀, hs, hsame ▸ hq⟩
  · exact ⟨f, hf, hq⟩

/-- An entry that a report leaves behind with a request was there with it. -/
theorem Sheds.join {log : Log} {s : Slot} {r : PromisedEntry} {q : ClientRequest}
    (hq : (LogEntry.join r (log.get? s)).request = some q) :
    ∃ e, log.get? s = some e ∧ e.request = some q := by
  cases hs : log.get? s with
  | none => rw [hs, LogEntry.request_join_none] at hq; cases hq
  | some e =>
    rw [hs] at hq
    rcases LogEntry.request_join_some r e with heq | ⟨heq, -⟩
    · rw [heq] at hq; cases hq
    · exact ⟨e, rfl, heq ▸ hq⟩

theorem Joined.sheds {log log' : Log} {s : Slot} {r : PromisedEntry}
    (h : Joined log log' s r) : log.Sheds log' := by
  intro t e q he hq
  rw [h.get?] at he
  split at he
  · rename_i hst
    subst hst
    cases he
    exact Sheds.join hq
  · exact ⟨e, he, hq⟩

theorem Merged.sheds {log log' : Log} {reported : SlotMap PromisedEntry}
    (h : Merged log log' reported) : log.Sheds log' := by
  intro s e q he hq
  by_cases hk : s = Slot.sentinel ∨ reported[s]? = none
  · rw [h.kept s hk] at he; exact ⟨e, he, hq⟩
  · obtain ⟨hne, hk⟩ := not_or.mp hk
    obtain ⟨r, hk⟩ := Option.ne_none_iff_exists'.mp hk
    rw [h.joined s r hne hk] at he
    cases he
    exact Sheds.join hq

end Log

end PaxosLog
