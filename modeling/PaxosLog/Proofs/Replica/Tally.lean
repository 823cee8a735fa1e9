import PaxosLog.Proofs.Replica.Change

/-!
# What an acknowledgement changes

An acknowledgement is counted for the entry of its slot if it carries the ballot of the entry, which
is the current one and the replica's own; it then adds its sender to the votes of the entry. Neither
the choice that may follow nor the execution of what became ready changes what is counted.

* `Turn.tally_of_counted`: an acknowledgement that is counted.
* `Turn.tally_onAccepted`: one that changes what is counted is counted in this way.
-/

namespace PaxosLog

/-- What an entry counts votes for, and the votes. -/
def LogEntry.tally (e : LogEntry) : Ballot × Command × Quorum := (e.ballot, e.command, e.acks)

/-- What slot `s` counts votes for, and the votes. -/
def Log.tally (log : Log) (s : Slot) : Option (Ballot × Command × Quorum) :=
  (log.get? s).map LogEntry.tally

namespace Log

theorem tally_set (log : Log) (s s' : Slot) (e : LogEntry) :
    (log.set s e).tally s' = if s = s' then some e.tally else log.tally s' := by
  unfold tally
  rw [get?_set]
  split
  · rfl
  · rfl

/-- Setting an entry that counts the same. -/
theorem tally_set_same {log : Log} {s : Slot} {e e' : LogEntry} (hs : log.get? s = some e)
    (h : e'.tally = e.tally) (s' : Slot) : (log.set s e').tally s' = log.tally s' := by
  rw [tally_set]
  split
  · rename_i heq
    subst heq
    rw [tally, hs, h]
    rfl
  · rfl

theorem tally_eq_some {log : Log} {s : Slot} {b : Ballot} {c : Command} {q : Quorum} :
    log.tally s = some (b, c, q) ↔
      ∃ e, log.get? s = some e ∧ e.ballot = b ∧ e.command = c ∧ e.acks = q := by
  simp [tally, LogEntry.tally]

end Log

variable {ρ σ : Type} [RandomSource ρ] [StateMachine σ]

namespace Turn

variable {t t' : Turn ρ σ}

omit [RandomSource ρ] in
/-- Execution counts nothing. -/
theorem tally_executeUpTo {count : Nat} (h : t.executeUpTo count = .ok t') (s : Slot) :
    t'.log.tally s = t.log.tally s := by
  induction count generalizing t with
  | zero => cases h; rfl
  | succ count ih =>
    unfold executeUpTo at h
    split at h
    · cases h; rfl
    · rename_i e he
      split at h
      · obtain ⟨t₁, h₁, h₂⟩ := bind_eq_ok.mp h
        rw [ih h₂]
        obtain ⟨_, _, _, -, rfl, -⟩ := executeEntry_eq_ok h₁
        have hsame : e.withoutRequest.tally = e.tally := rfl
        exact Log.tally_set_same he hsame s
      · cases h; rfl

omit [RandomSource ρ] in
/-- To choose a command counts nothing. -/
theorem tally_countVotes {slot : Slot} (h : t.countVotes slot = .ok t') (s : Slot) :
    t'.log.tally s = t.log.tally s := by
  unfold countVotes at h
  split at h
  · cases h; rfl
  · rename_i e he
    split at h
    · rw [tally_executeUpTo h s]
      have hsame : e.commit.tally = e.tally := rfl
      exact Log.tally_set_same he hsame s
    · cases h; rfl

/-- An acknowledgement that counts. -/
theorem tally_of_counted {m : Accepted} {e : LogEntry} (he : t.log.get? m.slot = some e)
    (hc : e.isCommitted = false) (hb : e.ballot = t.ballot) (hm : m.ballot = t.ballot)
    (ho : t.ballot.owner = some t.id) (h : t.onAccepted m = .ok t') (s : Slot) :
    t'.log.tally s = if m.slot = s then some (e.ack m.sender).tally else t.log.tally s := by
  have hown : m.ballot.isOwnedBy t.id = true := Ballot.isOwnedBy_iff.mpr (hm ▸ ho)
  have hge : ¬ m.ballot < e.ballot := by rw [hm, hb]; exact Std.lt_irrefl
  have hge' : ¬ t.ballot < m.ballot := by rw [hm]; exact Std.lt_irrefl
  unfold onAccepted at h
  rw [he] at h
  simp only [hc, Bool.false_eq_true, false_or] at h
  rw [if_neg hge, if_neg hge', if_pos ⟨hm, hm.trans hb.symm, hown⟩] at h
  rw [tally_countVotes h s]
  exact Log.tally_set t.log m.slot s (e.ack m.sender)

/-- An acknowledgement that does not count changes no votes. -/
theorem tally_onAccepted {m : Accepted} (h : t.onAccepted m = .ok t') :
    (∀ s, t'.log.tally s = t.log.tally s) ∨ ∃ e, t.log.get? m.slot = some e ∧
      e.isCommitted = false ∧ e.ballot = t.ballot ∧ m.ballot = t.ballot ∧
      t.ballot.owner = some t.id := by
  cases onAccepted_eq_ok h with
  | ignored h => subst h; exact .inl fun s => rfl
  | superseded hlt h =>
    obtain ⟨_, _, _, _, rfl, -⟩ := follow_eq_ok h
    exact .inl fun s => rfl
  | counted e he hc hb hm ho h => exact .inr ⟨e, he, hc, hb, hm, ho⟩

end Turn

end PaxosLog
