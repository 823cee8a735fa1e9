import PaxosLog.Proofs.Network
import PaxosLog.Proofs.Replica.Run

/-!
# Promises are kept

What a replica answers binds it. A promise and an acknowledgement carry the ballot of their sender,
that ballot only rises, and whoever asks for votes under a lower one gets nothing but an answer. A
replica opens a ballot of its own only above the one that it holds, which every request for a
promise or a vote has raised to its own.

* `Replica.Run.ballot_le`: the ballot only rises.
* `Move.promised`, `Replica.Run.promised`: an answer carries the ballot of the replica at that time,
  so that answers carry ascending ballots.
* `bound_of_step`: a request for a promise or a vote is not above the ballot after it.
* `step_of_outdated`: a request for votes under a lower ballot changes nothing.

**`promises_kept`**: after any inputs, whatever the peers say.
-/

namespace PaxosLog

/-- The ballot that a message promises to its receiver. -/
def Message.promised? : Message → Option Ballot
  | .promise m => some m.ballot
  | .accepted m => some m.ballot
  | _ => none

/-- The ballot that an effect promises. -/
def Effect.promised? : Effect → Option Ballot
  | .broadcast m => m.promised?
  | .send _ m => m.promised?
  | _ => none

/-- The ballots that were promised, in order. -/
def promised (effects : List Effect) : List Ballot := effects.filterMap Effect.promised?

theorem promised_append (effects more : List Effect) :
    promised (effects ++ more) = promised effects ++ promised more :=
  List.filterMap_append

/-- The message asks for a promise or a vote, and there is somebody to be answered. -/
def Message.Binds : Message → Prop
  | .prepare m => m.ballot.owner ≠ none
  | .accept m => m.ballot.owner ≠ none
  | _ => False

theorem Effect.isMessage_of_promised? {x : Effect} {b : Ballot} (h : x.promised? = some b) :
    x.IsMessage := by
  cases x with
  | broadcast m => trivial
  | send q m => trivial
  | _ => cases h

variable {ρ σ : Type} [RandomSource ρ] [StateMachine σ]
  {before : Replica ρ σ} {input : Input} {t t' : Turn ρ σ}

omit [RandomSource ρ] [StateMachine σ] in
/-- An answer carries the ballot of the replica. -/
theorem Emits.promised_eq {x : Effect} {b : Ballot} (h : Emits before input t t' x)
    (hb : x.promised? = some b) : b = t'.ballot := by
  cases h with
  | prepare hlog hsame hlt ho => cases hb
  | ask s e ha hball hs hs' hc heb hnew => cases hb
  | choose s e ho hs hc hball hq => cases hb
  | answer m candidate hi ho hle hsame => cases hb; rw [hsame]
  | vote m proposer hi ho hball hball' hj => cases hb; exact hball'.symm
  | refuse m proposer hi ho hbefore hlt hsame => cases hb; rw [hsame]

/-- A move promises nothing but the ballot after it. -/
theorem Move.promised (h : Move before input t t') :
    ∃ more, PaxosLog.promised t'.effects = PaxosLog.promised t.effects ++ more ∧
      ∀ b ∈ more, b = t'.ballot := by
  obtain ⟨more, heff, hmore⟩ := h.emitted
  refine ⟨PaxosLog.promised more, by rw [heff, promised_append], fun b hb => ?_⟩
  obtain ⟨x, hx, hxb⟩ := List.mem_filterMap.mp hb
  exact (hmore x hx (Effect.isMessage_of_promised? hxb)).promised_eq hxb

/-! ## Steps -/

variable {r r' : Replica ρ σ} {now : Duration} {effects : List Effect}

/-- **Who is asked follows**: a request for a promise or a vote is not above the ballot after it. -/
theorem bound_of_step {m : Message} (hm : m.Binds)
    (h : r.step now (.message m) = .ok (r', effects)) : m.ballot ≤ r'.ballot := by
  obtain ⟨t, ht, heq⟩ := map_eq_ok.mp h
  cases heq
  cases m with
  | prepare m =>
    obtain ⟨candidate, ho⟩ := Option.ne_none_iff_exists'.mp hm
    simp only [Turn.onInput, Turn.onMessage, Turn.onPrepare, ho] at ht
    obtain ⟨t₁, h₁, ht⟩ := bind_eq_ok.mp ht
    have hle := Turn.le_ballot_of_follow h₁
    cases ht
    exact hle
  | accept m =>
    cases Turn.onAccept_eq_ok ht with
    | ignored h ho => exact absurd ho hm
    | refused proposer ho hlt h => subst h; exact Std.le_of_lt hlt
    | voted proposer t₁ log displaced ho hle h₁ hvote h =>
      have hb := Turn.le_ballot_of_follow h₁
      subst h
      exact hb
  | promise m => cases hm
  | accepted m => cases hm
  | commit m => cases hm

/-- **A request for votes under a lower ballot** is answered at most. -/
theorem step_of_outdated (r : Replica ρ σ) (now : Duration) {m : Accept}
    (hlt : m.ballot < r.ballot) :
    ∃ answer, r.step now (.message (.accept m)) = .ok (r, answer) := by
  cases ho : m.ballot.owner with
  | none =>
    refine ⟨[], ?_⟩
    simp only [Replica.step, Turn.onInput, Turn.onMessage, Turn.onAccept, ho]
    rfl
  | some proposer =>
    refine ⟨[.send proposer (.accepted ⟨r.ballot, m.slot, r.id⟩)], ?_⟩
    simp only [Replica.step, Turn.onInput, Turn.onMessage, Turn.onAccept, ho, hlt, if_true]
    rfl

/-- A ballot that is opened belongs to the replica and is above the one before the step. -/
theorem opened_of_step (ht : Tidy r) {input : Input}
    (h : r.step now input = .ok (r', effects)) {m : Prepare}
    (hx : .broadcast (.prepare m) ∈ effects) :
    m.ballot.owner = some r.id ∧ r.ballot < m.ballot ∧ m.ballot ≤ r'.ballot := by
  obtain ⟨t, hmoves, rfl, rfl⟩ := moves_of_step (fun ha => (ht.lead ha).1) h
  suffices hall : t.id = r.id ∧ r.ballot ≤ t.ballot ∧ ∀ m, .broadcast (.prepare m) ∈ t.effects →
      m.ballot.owner = some r.id ∧ r.ballot < m.ballot ∧ m.ballot ≤ t.ballot from hall.2.2 m hx
  clear h hx
  induction hmoves with
  | refl => exact ⟨rfl, Std.le_refl _, fun m hx => by cases hx⟩
  | tail _ hmove ih =>
    obtain ⟨hid, hle, hopened⟩ := ih
    refine ⟨hmove.id_eq.trans hid, Std.le_trans hle hmove.ballot_le, fun m hx => ?_⟩
    rcases hmove.emits hx trivial with hx | hemits
    · obtain ⟨ho, hlt, hm⟩ := hopened m hx
      exact ⟨ho, hlt, Std.le_trans hm hmove.ballot_le⟩
    · cases hemits with
      | prepare hlog hsame hlt ho =>
        exact ⟨ho.trans (congrArg some hid), Std.lt_of_le_of_lt hle hlt, Std.le_refl _⟩

/-! ## Runs -/

variable {fresh : Replica ρ σ} {inputs more : List Input} {out : List Effect}

namespace Replica.Run

/-- **The ballot only rises.** -/
theorem ballot_le (h : r.Run more r' out) (ht : Tidy r) : r.ballot ≤ r'.ballot :=
  h.moved (P := fun _ _ r' => r.ballot ≤ r'.ballot) ht (Std.le_refl _) (fun _ _ _ _ hle => hle)
    fun _ _ _ _ _ _ _ _ hmove hle => Std.le_trans hle hmove.ballot_le

/-- **Answers carry ascending ballots**, up to that of the replica. -/
theorem promised (h : fresh.Run inputs r effects) (hf : Tidy fresh) :
    (PaxosLog.promised effects).Pairwise (· ≤ ·) ∧
      ∀ b ∈ PaxosLog.promised effects, b ≤ r.ballot := by
  refine h.moved (P := fun _ effects r => (PaxosLog.promised effects).Pairwise (· ≤ ·) ∧
    ∀ b ∈ PaxosLog.promised effects, b ≤ r.ballot) hf ⟨.nil, by simp [PaxosLog.promised]⟩
    (fun _ _ _ _ hold => hold) fun _ prior _ _ t t' _ _ hmove ⟨hasc, hle⟩ => ?_
  obtain ⟨more, heff, hmore⟩ := hmove.promised
  rw [promised_append, heff, ← List.append_assoc, ← promised_append]
  have hold : ∀ b ∈ PaxosLog.promised (prior ++ t.effects), b ≤ t'.ballot := fun b hb =>
    Std.le_trans (hle b hb) hmove.ballot_le
  refine ⟨List.pairwise_append.mpr ⟨hasc, ?_, fun b hb c hc => hmore c hc ▸ hold b hb⟩,
    fun b hb => ?_⟩
  · refine List.pairwise_of_forall_mem_list fun b hb c hc => ?_
    rw [hmore b hb, hmore c hc]
    exact Std.le_refl _
  · rcases List.mem_append.mp hb with hb | hb
    · exact hold b hb
    · rw [hmore b hb]
      exact Std.le_refl _

/-- A replica holds at least the ballots that it was asked to follow. -/
theorem bound (h : fresh.Run inputs r effects) (hf : Tidy fresh) {m : Message} (hm : m.Binds)
    (hi : .message m ∈ inputs) : m.ballot ≤ r.ballot := by
  induction h with
  | start => cases hi
  | @step inputs r r' effects out h now input hs ih =>
    rcases List.mem_append.mp hi with hi | hi
    · exact Std.le_trans (ih hi) (ballot_le (.step .start now input hs) (h.tidy hf))
    · rw [← List.mem_singleton.mp hi] at hs
      exact bound_of_step hm hs

end Replica.Run

/-- **Promises are kept.** Whatever a replica was given before and is given later: its ballot does
not fall. A ballot that it opens is its own, and is above the one that it holds and above every
ballot under which it was asked for a promise or a vote that it could answer. Once it promised a
ballot, a request for votes under a lower one changes nothing, and the ballots that it promises
never fall. No further input makes the replica fail, unless a counter is at its limit or no delay
can be made. -/
theorem promises_kept {id : ReplicaId} {n : Nat} {config : Config} {source : ρ} {machine : σ}
    (hstart : Replica.start id n config source machine = .ok fresh)
    (hrun : fresh.Run inputs r effects) (hmore : r.Run more r' out) :
    r.ballot ≤ r'.ballot ∧
    (∀ now input next last m, r'.step now input = .ok (next, last) →
      .broadcast (.prepare m) ∈ last → m.ballot.owner = some id ∧ r'.ballot < m.ballot ∧
        m.ballot ≤ next.ballot ∧
        ∀ seen, .message seen ∈ inputs ++ more → seen.Binds → seen.ballot < m.ballot) ∧
    (∀ b ∈ promised effects, ∀ now m, m.ballot < b →
      ∃ answer, r'.step now (.message (.accept m)) = .ok (r', answer)) ∧
    (promised (effects ++ out)).Pairwise (· ≤ ·) ∧
    ∀ now input f, r'.step now input = .error f →
      r'.AtLimit input f := by
  have hf := Tidy.start hstart
  have hall := hrun.append hmore
  have htidy := hall.tidy hf
  have hrise := hmore.ballot_le (hrun.tidy hf)
  have hid := hall.id_eq hf
  refine ⟨hrise, fun now input next last m hs hx => ?_, fun b hb now m hlt => ?_,
    (hall.promised hf).1, fun now input f hs => atLimit_of_step htidy hs⟩
  · obtain ⟨ho, hlt, hle⟩ := opened_of_step htidy hs hx
    obtain ⟨quorums, rfl⟩ := Replica.start_eq_ok hstart
    exact ⟨ho.trans (congrArg some hid), hlt, hle,
      fun seen hi hbinds => Std.lt_of_le_of_lt (hall.bound hf hbinds hi) hlt⟩
  · have hle := Std.le_trans ((hrun.promised hf).2 b hb) hrise
    exact step_of_outdated r' now (Std.lt_of_lt_of_le hlt hle)

/-- Replica 1 promises a ballot to replica 2 and then opens one of its own: a request for votes
under a ballot below both changes nothing. -/
theorem promises_kept_outdated : ∃ r r' : Replica Script Journal, r.ballot = ⟨2, some 2⟩ ∧
    r'.ballot = ⟨3, some 1⟩ ∧ r.ballot ≤ r'.ballot ∧
    ∃ answer, r'.step .zero (.message (.accept ⟨⟨1, some 3⟩, 1, .noop⟩)) = .ok (r', answer) := by
  obtain ⟨r, effects, r', out, hrun, hmore, hpromised, hb, hb'⟩ := Replica.Run.exists_of_feeds
    (Network.trio.replica 1) [.message (.prepare ⟨⟨2, some 2⟩, 1⟩)] [.elect]
    (fun p p' => promised p.2 = [⟨2, some 2⟩] ∧ p.1.ballot = ⟨2, some 2⟩ ∧
      p'.1.ballot = ⟨3, some 1⟩)
    (by decide +kernel)
  have hstart : Replica.start 1 3 .standard (⟨[]⟩ : Script) Journal.empty =
      .ok (Network.trio.replica 1) := rfl
  obtain ⟨hle, -, hkept, -⟩ := promises_kept hstart hrun hmore
  exact ⟨r, r', hb, hb', hle,
    hkept ⟨2, some 2⟩ (by rw [hpromised]; exact List.mem_singleton.mpr rfl) .zero
      ⟨⟨1, some 3⟩, 1, .noop⟩ (by decide)⟩

end PaxosLog
