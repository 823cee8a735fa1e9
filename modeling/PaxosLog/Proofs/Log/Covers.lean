import PaxosLog.Proofs.Log.Join

/-!
# Reports that say nothing new

A log covers a report on a slot if it knows as much: the slot holds a chosen command, or the report
is a vote and the slot holds one under a ballot that is not lower. Whatever was reported once is
covered, entries that grow cover what they covered, and a covered report changes nothing.

* `Joined.covers`, `Merged.covers_reported`: what was taken in is covered.
* `Covers.grows`: a log that grows covers what it covered.
* `vote_of_covers`, `learn_of_covers`, `merge_of_covers`: what is covered changes nothing.
-/

namespace PaxosLog

/-- The report says nothing new about the slot of the entry. -/
def LogEntry.Covers (e : LogEntry) (p : PromisedEntry) : Prop :=
  e.isCommitted = true ∨ p.committed = false ∧ p.ballot ≤ e.ballot

/-- A report is covered where it was joined. -/
theorem LogEntry.covers_join (p : PromisedEntry) (local? : Option LogEntry) :
    (join p local?).Covers p := by
  unfold join Covers
  cases local? with
  | none => cases hp : p.committed <;> simp [hp, Std.le_refl]
  | some e =>
    simp only
    split
    · rename_i hc; exact .inl hc
    · split
      · exact .inl (isCommitted_commit _)
      · rename_i hp
        rw [Bool.not_eq_true] at hp
        split
        · exact .inr ⟨hp, by rw [ballot_replaced]; exact Std.le_refl _⟩
        · rename_i hlt; exact .inr ⟨hp, Ballot.not_lt.mp hlt⟩

/-- An entry covers what it covered before it grew. -/
theorem LogEntry.Covers.grows {e e' : LogEntry} {p : PromisedEntry} (h : e.Covers p)
    (hg : e.Grows e') : e'.Covers p := by
  cases hc' : e'.isCommitted with
  | true => exact .inl hc'
  | false =>
    rcases h with hc | ⟨hp, hle⟩
    · exact absurd (hc'.symm.trans (hg.chosen hc).1) (by simp)
    · exact .inr ⟨hp, Std.le_trans hle (hg.ballot hc')⟩

namespace Log

/-- The report says nothing new about the slot. -/
def Covers (log : Log) (s : Slot) (p : PromisedEntry) : Prop :=
  ∃ e, log.get? s = some e ∧ e.Covers p

theorem Covers.grows {log log' : Log} {s : Slot} {p : PromisedEntry} (h : log.Covers s p)
    (hg : log.Grows log') : log'.Covers s p := by
  obtain ⟨e, he, hcov⟩ := h
  obtain ⟨e', he', hge⟩ := hg.entry s e he
  exact ⟨e', he', hcov.grows hge⟩

theorem Joined.covers {log log' : Log} {s : Slot} {p : PromisedEntry} (h : Joined log log' s p) :
    log'.Covers s p :=
  ⟨_, (h.get? s).trans (if_pos rfl), LogEntry.covers_join p _⟩

theorem Merged.covers_reported {log log' : Log} {reported : SlotMap PromisedEntry}
    (h : Merged log log' reported) {s : Slot} {p : PromisedEntry} (hs : s ≠ Slot.sentinel)
    (hp : reported[s]? = some p) : log'.Covers s p :=
  ⟨_, h.joined s p hs hp, LogEntry.covers_join p _⟩

/-! ## What is covered changes nothing -/

theorem observe_of_le {log : Log} {s : Slot} (h : s ≤ log.highestSlot) : log.observe s = log :=
  if_neg (Std.not_lt.mpr h)

theorem vote_of_covers {log : Log} {s : Slot} {b : Ballot} {c : Command}
    (hs : s ≤ log.highestSlot) (h : log.Covers s ⟨c, b, false⟩) :
    log.vote s b c = .ok (log, none) := by
  obtain ⟨e, he, hcov⟩ := h
  unfold vote
  simp only [observe_of_le hs, he]
  rcases hcov with hc | ⟨-, hle⟩
  · rw [if_pos hc]
  · split
    · rfl
    · rw [if_neg (Ballot.not_lt.mpr hle)]

theorem learn_of_covers {log : Log} {s : Slot} {b : Ballot} {c : Command}
    (hs : s ≤ log.highestSlot) (h : log.Covers s ⟨c, b, true⟩) :
    log.learn s b c = .ok (log, none) := by
  obtain ⟨e, he, hc | ⟨hp, -⟩⟩ := h
  · unfold learn
    simp only [observe_of_le hs, he, if_pos hc]
  · cases hp

theorem adopt_of_covers {log : Log} {s : Slot} {p : PromisedEntry} (hs : s ≤ log.highestSlot)
    (h : log.Covers s p) : log.adopt s p = .ok (log, none) := by
  obtain ⟨c, b, committed⟩ := p
  unfold adopt
  split
  · rfl
  · cases committed with
    | true => exact learn_of_covers hs h
    | false => exact vote_of_covers hs h

/-- **A promise whose reports are covered changes nothing.** -/
theorem merge_of_covers {log : Log} {reported : SlotMap PromisedEntry}
    (h : ∀ s p, s ≠ Slot.sentinel → reported[s]? = some p →
      s ≤ log.highestSlot ∧ log.Covers s p) : log.merge reported = .ok (log, []) := by
  refine merge_of_settled fun s p hp => ?_
  by_cases hs : s = Slot.sentinel
  · exact if_pos hs
  · exact adopt_of_covers (h s p hs hp).1 (h s p hs hp).2

end Log

end PaxosLog
