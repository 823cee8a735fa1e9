import PaxosLog.Proofs.Network
import PaxosLog.Proofs.Replica.Duty
import PaxosLog.Proofs.Replica.Run

/-!
# The shape of a log

The entries, the highest slot and the cursor of a log are changed in different places: a slot
becomes known before its entry is stored, and the cursor moves in the middle of other updates.
Between two inputs they fit together all the same (`Log.Shaped`).

| slots | what they hold |
|---|---|
| below the cursor | chosen commands without requests |
| from the cursor to the highest slot | anything, or nothing |
| the highest slot | an entry |
| above it | nothing |

Two questions are answered by looking at a part of the log only: whether a vote owns a request, and
what a promise reports. Nothing outside of this part would change the answers.

**`log_shaped`**: so it is after any inputs.
-/

namespace PaxosLog

/-- How entries, highest slot and cursor fit together. -/
structure Log.Shaped (log : Log) : Prop where
  /-- No entry is above the highest slot. -/
  bounded : ∀ s e, log.get? s = some e → s ≤ log.highestSlot
  topped : ∃ e, log.get? log.highestSlot = some e
  first_le : Slot.first ≤ log.executeCursor
  cursor_le : log.executeCursor.toNat ≤ log.highestSlot.toNat + 1
  done : ∀ s, s < log.executeCursor →
    ∃ e, log.get? s = some e ∧ e.isCommitted = true ∧ e.request = none
  /-- A request is owned by an entry of its own command. -/
  owning : ∀ s e q, log.get? s = some e → e.request = some q → e.command = .client q.command

namespace Log.Shaped

variable {log : Log}

/-- A no-op owns no request. -/
theorem request_eq_none_of_noop (h : log.Shaped) {s : Slot} {e : LogEntry}
    (he : log.get? s = some e) (hnoop : e.command = .noop) : e.request = none := by
  refine Option.eq_none_iff_forall_ne_some.mpr fun q hq => ?_
  have hown := h.owning s e q he hq
  rw [hnoop] at hown
  cases hown

/-- A report leaves out nothing that is present. -/
theorem getElem?_promised (h : log.Shaped) (start s : Slot) :
    (log.promised start)[s]? =
      if max start Slot.first ≤ s then (log.get? s).map LogEntry.promised else none := by
  rw [Log.getElem?_promised]
  by_cases hs : s ≤ log.highestSlot
  · simp only [hs, and_true]
  · have hnone : log.get? s = none :=
      Option.eq_none_iff_forall_ne_some.mpr fun e he => hs (h.bounded s e he)
    simp [hs, hnone]

end Log.Shaped

variable {ρ σ : Type}

/-- The slot before the cursor is present, and so at most the highest one. -/
theorem Tidy.cursor_le {r : Replica ρ σ} (h : Tidy r) :
    r.log.executeCursor.toNat ≤ r.log.highestSlot.toNat + 1 := by
  have hfirst := UInt64.le_iff_toNat_le.mp h.first_le
  change 1 ≤ r.log.executeCursor.toNat at hfirst
  have hpred : (r.log.executeCursor - 1).toNat = r.log.executeCursor.toNat - 1 :=
    UInt64.toNat_sub_of_le _ _ h.first_le
  obtain ⟨e, he, -⟩ := h.done (r.log.executeCursor - 1) (by rw [UInt64.lt_iff_toNat_lt]; omega)
  have hle := UInt64.le_iff_toNat_le.mp (h.bounded _ e he)
  omega

theorem Tidy.shaped {r : Replica ρ σ} (h : Tidy r) (htop : r.log.Topped) : r.log.Shaped where
  bounded := h.bounded
  topped := htop
  first_le := h.first_le
  cursor_le := h.cursor_le
  done s hs := by
    obtain ⟨e, he, hc⟩ := h.done s hs
    exact ⟨e, he, hc, h.spent s e hs he⟩
  owning := h.owning

variable [RandomSource ρ] [StateMachine σ]

/-- **The log of a replica keeps its shape.** Whatever a replica was given, its log is shaped as it
must be, and no-ops own no requests. A vote that owns a request is found wherever it is, and a
promise reports all entries from the asked slot on. No further input makes the replica fail, unless
a counter is at its limit or no delay can be made. -/
theorem log_shaped {id : ReplicaId} {n : Nat} {config : Config} {source : ρ} {machine : σ}
    {fresh r : Replica ρ σ} {inputs : List Input} {effects : List Effect}
    (hstart : Replica.start id n config source machine = .ok fresh)
    (hrun : fresh.Run inputs r effects) :
    r.log.Shaped ∧
    (∀ s e, r.log.get? s = some e → e.command = .noop → e.request = none) ∧
    (r.log.hasOwnedUncommitted = true ↔ ∃ s e, r.log.Open s e ∧ e.request ≠ none) ∧
    (∀ start s, (r.log.promised start)[s]? =
      if max start Slot.first ≤ s then (r.log.get? s).map LogEntry.promised else none) ∧
    ∀ now input f, r.step now input = .error f →
      r.AtLimit input f := by
  have ht := hrun.tidy (Tidy.start hstart)
  have hshaped := ht.shaped (hrun.topped hstart)
  exact ⟨hshaped, fun _ _ => hshaped.request_eq_none_of_noop, ht.hasOwnedUncommitted_iff,
    hshaped.getElem?_promised, fun _ _ _ => atLimit_of_step ht⟩

/-- Replica 1 is elected by replica 2 and has one command chosen. Its second one waits for votes,
nothing is known about the slot after it, and the one behind that was announced. -/
theorem log_shaped_gap : ∃ (r : Replica Script Journal),
    r.log.toList.map (fun p => (p.1, p.2.isCommitted, p.2.request)) =
      [(1, true, none), (2, false, some ⟨1, [66]⟩), (4, true, none)] ∧
    r.log.executeCursor = 2 ∧ r.log.highestSlot = 4 ∧ r.log.Shaped ∧
    (r.log.hasOwnedUncommitted = true ↔ ∃ s e, r.log.Open s e ∧ e.request ≠ none) ∧
    (r.log.promised 0)[(4 : Slot)]? = (r.log.get? 4).map LogEntry.promised := by
  obtain ⟨r, effects, hrun, hentries, hcursor, hhigh⟩ := Replica.Run.exists_of_feed
    (Network.trio.replica 1)
    [.request ⟨0, [65]⟩, .message (.promise ⟨⟨1, some 1⟩, 2, ∅⟩),
      .message (.accepted ⟨⟨1, some 1⟩, 1, 2⟩), .request ⟨1, [66]⟩,
      .message (.commit ⟨⟨1, some 1⟩, 4, .client [67]⟩)]
    (fun p => p.1.log.toList.map (fun p => (p.1, p.2.isCommitted, p.2.request)) =
      [(1, true, none), (2, false, some ⟨1, [66]⟩), (4, true, none)] ∧
      p.1.log.executeCursor = 2 ∧ p.1.log.highestSlot = 4)
    (by decide +kernel)
  have hstart : Replica.start 1 3 .standard (⟨[]⟩ : Script) Journal.empty =
      .ok (Network.trio.replica 1) := rfl
  obtain ⟨hshaped, -, hopen, hpromised, -⟩ := log_shaped hstart hrun
  exact ⟨r, hentries, hcursor, hhigh, hshaped, hopen, hpromised 0 4⟩

end PaxosLog
