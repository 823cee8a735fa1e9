import PaxosLog.Proofs.Replica.Limits

/-!
# How far a step counts

A step comes to a higher slot for two reasons only: a message names it, or a request gets the slot
after the highest one. And it gives slots to no other requests than those that wait when it begins,
in the queue or in the input. So there is always a slot, known before or named by the input, from
which the waiting requests reach to where the step is (`Carries.exists_slot`).

| a step comes to its limit | if |
|---|---|
| the last round | it opens a ballot, and the one that it holds is of that round |
| the last slot | the waiting requests reach to it from a slot that is known or named |
| no delay can be made | a message names a higher ballot, and the policy or the source faults |

**`atLimit_of_step`**: no step of a tidy replica fails for another reason (`Replica.AtLimit`).
-/

namespace PaxosLog

/-- The slots that a replica learns of from a message. -/
def Message.slots : Message → List Slot
  | .promise m => m.log.toList.map Prod.fst
  | .accept m => [m.slot]
  | .commit m => [m.slot]
  | _ => []

/-- The slots that a replica learns of from an input. -/
def Input.slots : Input → List Slot
  | .message m => m.slots
  | _ => []

theorem Message.mem_slots_promise {m : Promise} {s : Slot} {p : PromisedEntry}
    (h : m.log[s]? = some p) : s ∈ (Message.promise m).slots :=
  List.mem_map.mpr ⟨(s, p), Std.ExtTreeMap.mem_toList_iff_getElem?_eq_some.mpr h, rfl⟩

theorem Log.Joined.highestSlot_toNat_le {log log' : Log} {s : Slot} {p : PromisedEntry} {N : Nat}
    (h : Joined log log' s p) (hlog : log.highestSlot.toNat ≤ N) (hs : s.toNat ≤ N) :
    log'.highestSlot.toNat ≤ N := by
  have hmax : log'.highestSlot = if log.highestSlot ≤ s then s else log.highestSlot := h.highest
  rw [hmax]
  split
  · exact hs
  · exact hlog

/-- With the requests `hand` in hand, a replica has counted from slots up to `M` for no more than
`w` requests, and those that wait have their slots still before them. -/
structure Reach {ρ σ : Type} (M w : Nat) (r : Replica ρ σ) (hand : List ClientRequest) : Prop where
  held : r.pending.length + hand.length ≤ w
  slots : r.log.highestSlot.toNat + r.pending.length + hand.length ≤ M + w

variable {ρ σ : Type} [RandomSource ρ] [StateMachine σ]

section Moves

variable {before : Replica ρ σ} {input : Input} {t t' : Turn ρ σ} {M N w : Nat}

/-- A slot becomes the highest one when a request gets it, or when a message names it. -/
theorem Move.highestSlot_toNat_le (h : Move before input t t')
    (hinput : ∀ s ∈ input.slots, s.toNat ≤ N) (hunowned : t.log.AddsUnowned t'.log)
    (ht : t.log.highestSlot.toNat ≤ N) : t'.log.highestSlot.toNat ≤ N := by
  cases h with
  | offer s command request ha hs hc hgap =>
    cases request with
    | none =>
      show (t.log.observe s).highestSlot.toNat ≤ N
      rw [Log.highestSlot_observe_of_le (hgap rfl)]
      exact ht
    | some r =>
      have hnone := hunowned s _ hs (Log.get?_set _ s s _ |>.trans (if_pos rfl))
      cases hnone
  | execute t' e hs hc h =>
    obtain ⟨_, _, _, -, rfl, -⟩ := Turn.executeEntry_eq_ok h
    exact ht
  | backOff t' h => rw [(backOff_same h).2.2.1]; exact ht
  | vote m proposer log displaced hi ho hb h =>
    subst hi
    exact (Log.joined_vote h).highestSlot_toNat_le ht (hinput m.slot (.head _))
  | report m log displaced hi ha hle ho h =>
    subst hi
    exact Log.merge_induction (P := fun log => log.highestSlot.toNat ≤ N)
      (fun hp hj hlog => hj.highestSlot_toNat_le hlog
        (hinput _ (Message.mem_slots_promise hp))) h ht
  | countPromise m log displaced hi hstart ha hm ho h =>
    subst hi
    exact Log.merge_induction (P := fun log => log.highestSlot.toNat ≤ N)
      (fun hp hj hlog => hj.highestSlot_toNat_le hlog
        (hinput _ (Message.mem_slots_promise hp))) h ht
  | learn m log displaced hi h0 h =>
    subst hi
    exact (Log.joined_learn h).highestSlot_toNat_le ht (hinput m.slot (.head _))
  | _ => exact ht

namespace Reach

variable {c c' : Turn ρ σ × List ClientRequest}

/-- Every move keeps a step within its reach. -/
theorem carry (hc : Reach M w c.1.toReplica c.2) (h : Carry before input c c')
    (hinput : ∀ s ∈ input.slots, s.toNat ≤ M) : Reach M w c'.1.toReplica c'.2 := by
  obtain ⟨hheld, hslots⟩ := hc
  cases h with
  | enqueue t request hand hi ha =>
    simp only [List.length_cons] at hheld hslots
    constructor <;> simp only [List.length_append, List.length_singleton] <;> omega
  | dequeue t hand ha =>
    constructor <;> simp only [List.length_append, List.length_nil] at hheld hslots ⊢ <;> omega
  | offer t s request hand ha hs hnext hqueue =>
    simp only [List.length_cons] at hheld hslots
    have hs' := toNat_of_checkedSucc hnext
    have hhigh : (t.log.observe s).highestSlot = s := by
      have hlt : t.log.highestSlot < s := by rw [UInt64.lt_iff_toNat_lt]; omega
      rw [Log.observe, if_pos hlt]
    constructor
    · show t.pending.length + hand.length ≤ w
      omega
    · show (t.log.observe s).highestSlot.toNat + t.pending.length + hand.length ≤ M + w
      rw [hhigh]
      omega
  | other t t' hand h hstill =>
    simp only at hheld hslots
    have hhigh := h.highestSlot_toNat_le (N := M + w - (t.pending.length + hand.length))
      (fun s hs => Nat.le_trans (hinput s hs) (by omega)) hstill.log (by omega)
    constructor
    · show t'.pending.length + hand.length ≤ w
      rw [hstill.pending]
      exact hheld
    · show t'.log.highestSlot.toNat + t'.pending.length + hand.length ≤ M + w
      rw [hstill.pending]
      omega

theorem carries (hc : Reach M w c.1.toReplica c.2) (h : Carries before input c c')
    (hinput : ∀ s ∈ input.slots, s.toNat ≤ M) : Reach M w c'.1.toReplica c'.2 := by
  induction h with
  | refl => exact hc
  | tail _ hcarry ih => exact ih.carry hcarry hinput

end Reach

end Moves

/-! ## Steps that fail -/

variable {r : Replica ρ σ} {now : Duration} {input : Input} {f : Fault}

/-- Wherever a step is, the waiting requests reach there from a slot that was known or is named. -/
theorem Carries.exists_slot {c : Turn ρ σ × List ClientRequest}
    (h : Carries r input ({ r with now, effects := [] }, input.requests) c) :
    ∃ s, (s = r.log.highestSlot ∨ s ∈ input.slots) ∧
      c.1.log.highestSlot.toNat ≤ s.toNat + r.pending.length + input.requests.length := by
  by_contra hnone
  simp only [not_exists, not_and, Nat.not_le] at hnone
  have hknown := hnone _ (.inl rfl)
  have hreach : Reach (c.1.log.highestSlot.toNat - 1 - (r.pending.length + input.requests.length))
      (r.pending.length + input.requests.length) c.1.toReplica c.2 := by
    refine Reach.carries ⟨Nat.le_refl _, ?_⟩ h fun s hs => ?_
    · show r.log.highestSlot.toNat + r.pending.length + input.requests.length ≤ _
      omega
    · have hnamed := hnone s (.inr hs)
      omega
  have hslots := hreach.slots
  omega

/-- Why a replica fails on an input: one of its counters is at the limit, or no delay can be
made. -/
inductive Replica.AtLimit (r : Replica ρ σ) (input : Input) : Fault → Prop
  /-- It does not lead, is to open a ballot, and holds one of the last round. -/
  | round (hi : ∀ m, input ≠ .message m) (ha : r.active = false)
      (h : r.ballot.round = maxCounter) : AtLimit r input .counterOverflow
  /-- The waiting requests reach to the last slot, from one that is known or that the input
  names. -/
  | slot (s : Slot) (hs : s = r.log.highestSlot ∨ s ∈ input.slots)
      (h : maxCounter.toNat ≤ s.toNat + r.pending.length + input.requests.length) :
      AtLimit r input .counterOverflow
  /-- It learns of a higher ballot, and the delay before another election cannot be made. -/
  | delay (m : Message) (f : Fault) (hi : input = .message m) (hlt : r.ballot < m.ballot)
      (h : (r.backoff.policy.nextDelay r.source).1 = .error f) : AtLimit r input f

/-- **A step fails at a limit only.** -/
theorem atLimit_of_step (ht : Tidy r) (h : r.step now input = .error f) : r.AtLimit input f := by
  obtain ⟨c, hcarries, hstuck⟩ := stops_of_step ht h
  obtain ⟨s, hs, hle⟩ := hcarries.exists_slot
  cases hstuck with
  | round hi ha hb hlast => exact .round hi ha (hb ▸ hlast)
  | slot ha hlast => exact .slot s hs (hlast ▸ hle)
  | cursor e he hc hlast =>
    -- the chosen entry at the cursor is not above the highest slot
    have hcursor := (ht.moves hcarries.moves).bounded _ e he
    rw [hlast, UInt64.le_iff_toNat_le] at hcursor
    exact .slot s hs (Nat.le_trans hcursor hle)
  | delay f hwhy hdelay =>
    obtain ⟨m, hi, hlt, -⟩ := hwhy
    exact .delay m f hi hlt hdelay

end PaxosLog
