import PaxosLog.Proofs.Replica.Carry
import PaxosLog.Proofs.Replica.Change

/-!
# Where commands come from

A replica makes no command up but the no-op: what it stores, keeps for later or sends is what a
request or a message brought. `Replica.Only K` says that it holds commands of `K` only, and
`Effect.Only K` that it sends such only.

**`only_of_step`**: a step keeps to `K` if its input does.
-/

namespace PaxosLog

/-- The message carries commands of `K` only. -/
def Message.Only (K : Command → Prop) : Message → Prop
  | .promise m => ∀ (s : Slot) (r : PromisedEntry), m.log[s]? = some r → K r.command
  | .accept m => K m.command
  | .commit m => K m.command
  | _ => True

/-- The effect sends commands of `K` only. -/
def Effect.Only (K : Command → Prop) : Effect → Prop
  | .broadcast m => m.Only K
  | .send _ m => m.Only K
  | _ => True

/-- The input brings commands of `K` only. -/
def Input.Only (K : Command → Prop) : Input → Prop
  | .request r => K (.client r.command)
  | .message m => m.Only K
  | _ => True

theorem Message.Only.mono {K K' : Command → Prop} (hK : ∀ c, K c → K' c) {m : Message}
    (h : m.Only K) : m.Only K' := by
  cases m with
  | promise m => exact fun s r hr => hK _ (h s r hr)
  | accept m => exact hK _ h
  | commit m => exact hK _ h
  | _ => trivial

theorem Effect.Only.mono {K K' : Command → Prop} (hK : ∀ c, K c → K' c) {x : Effect}
    (h : x.Only K) : x.Only K' := by
  cases x with
  | broadcast m => exact Message.Only.mono hK h
  | send q m => exact Message.Only.mono hK h
  | _ => trivial

theorem Effect.only_of_not_isMessage {K : Command → Prop} {x : Effect} (h : ¬ x.IsMessage) :
    x.Only K := by
  cases x with
  | broadcast m => exact absurd trivial h
  | send q m => exact absurd trivial h
  | _ => trivial

variable {ρ σ : Type} {K : Command → Prop}

/-- The replica holds commands of `K` only, with the requests `hand` on top of its own. -/
structure Replica.Only (K : Command → Prop) (hand : List ClientRequest) (r : Replica ρ σ) :
    Prop where
  log : ∀ s e, r.log.get? s = some e → K e.command
  requests : ∀ q ∈ r.pending ++ hand, K (.client q.command)

theorem Replica.Only.mono {K K' : Command → Prop} (hK : ∀ c, K c → K' c)
    {hand : List ClientRequest} {r : Replica ρ σ} (h : r.Only K hand) : r.Only K' hand :=
  ⟨fun s e he => hK _ (h.log s e he), fun q hq => hK _ (h.requests q hq)⟩

variable [RandomSource ρ] [StateMachine σ]
  {before : Replica ρ σ} {input : Input} {t t' : Turn ρ σ}

omit [RandomSource ρ] [StateMachine σ] in
/-- A new message of a move carries what the replica held, or the command of a new entry. -/
theorem Emits.only {x : Effect} (h : Emits before input t t' x)
    (hlog : ∀ s e, t.log.get? s = some e → K e.command)
    (hnew : ∀ s e, t.log.get? s = none → t'.log.get? s = some e →
      K ((e.request.map fun r => Command.client r.command).getD .noop)) : x.Only K := by
  cases h with
  | prepare hlog' hsame hlt ho => trivial
  | ask s e ha hb hs hs' hc heb hcmd =>
    show K e.command
    cases hs₀ : t.log.get? s with
    | none => rw [hcmd hs₀]; exact hnew s e hs₀ hs'
    | some e₀ => rw [(hs e₀ hs₀).2]; exact hlog s e₀ hs₀
  | choose s e ho hs hc hb hq => exact hlog s e hs
  | answer m candidate hm ho hle hsame =>
    intro s r hr
    simp only [Log.getElem?_promised] at hr
    split at hr
    · obtain ⟨e, he, rfl⟩ := Option.map_eq_some_iff.mp hr
      exact hlog s e he
    · cases hr
  | vote m proposer hm ho hb hb' hj => trivial
  | refuse m proposer hm ho hbefore hlt hsame => trivial

omit [RandomSource ρ] [StateMachine σ] in
/-- An entry holds what the replica held, heard of or sent. -/
theorem Origin.only {s : Slot} {e : LogEntry} (h : Origin before input t t' s e)
    (hi : input.Only K) (hlog : ∀ s e, t.log.get? s = some e → K e.command)
    (heff : ∀ x ∈ t'.effects, x.Only K) : K e.command := by
  cases h with
  | kept e₀ hs hb hc hst hacks => rw [hc]; exact hlog s e₀ hs
  | asked hc hb hx hacks => exact heff _ hx
  | voted hc hm hb => rw [hm] at hi; exact hi
  | reported m r hm hr hst hc hb hle hnew => rw [hm] at hi; rw [hc]; exact hi s r hr
  | chosen e₀ hs he hx => exact heff _ hx
  | learned b hc hm => rw [hm] at hi; exact hi

/-- **Every move keeps to `K`**, if the input does. -/
theorem Carry.only {hand hand' : List ClientRequest} (h : Carry before input (t, hand) (t', hand'))
    (hi : input.Only K) (hnoop : K .noop) (hr : t.toReplica.Only K hand)
    (heff : ∀ x ∈ t.effects, x.Only K) :
    t'.toReplica.Only K hand' ∧ ∀ x ∈ t'.effects, x.Only K := by
  have hmove := h.move
  have hrequests : ∀ q ∈ t'.pending ++ hand', K (.client q.command) := by
    cases h with
    | enqueue t request hand hi ha => intro q hq; exact hr.requests q (by simp_all)
    | dequeue t hand ha => intro q hq; exact hr.requests q (by simp_all)
    | offer t s request hand ha hs =>
      intro q hq
      exact hr.requests q (by
        rcases List.mem_append.mp hq with hq | hq
        · exact List.mem_append_left _ hq
        · exact List.mem_append_right _ (List.mem_cons_of_mem _ hq))
    | other t t' hand h hstill => rw [hstill.pending]; exact hr.requests
  have hnew : ∀ s e, t.log.get? s = none → t'.log.get? s = some e →
      K ((e.request.map fun r => Command.client r.command).getD .noop) := by
    intro s e hs he
    cases h with
    | enqueue t request hand hi ha => rw [hs] at he; cases he
    | dequeue t hand ha => rw [hs] at he; cases he
    | offer t u request hand ha hu =>
      simp only [Turn.emit, Log.get?_set, Log.get?_observe, hs] at he
      split at he
      · cases he
        exact hr.requests request (List.mem_append_right _ List.mem_cons_self)
      · cases he
    | other t t' hand h hstill => rw [hstill.log s e hs he]; exact hnoop
  have heff' : ∀ x ∈ t'.effects, x.Only K := by
    intro x hx
    by_cases hm : x.IsMessage
    · rcases hmove.emits hx hm with hold | hemits
      · exact heff x hold
      · exact hemits.only hr.log hnew
    · exact Effect.only_of_not_isMessage hm
  exact ⟨⟨fun s e he => (hmove.origin he).only hi hr.log heff', hrequests⟩, heff'⟩

/-- **A step keeps to `K`**, if its input does. -/
theorem only_of_step {r r' : Replica ρ σ} {now : Duration} {effects : List Effect}
    (hlead : r.active = true → r.ballot.owner = some r.id) (hi : input.Only K) (hnoop : K .noop)
    (hr : r.Only K []) (h : r.step now input = .ok (r', effects)) :
    r'.Only K [] ∧ ∀ x ∈ effects, x.Only K := by
  obtain ⟨t, hcarries, rfl, rfl⟩ := carries_of_step hlead h
  suffices hall : ∀ c : Turn ρ σ × List ClientRequest,
      Carries r input ({ r with now, effects := [] }, input.requests) c →
        c.1.toReplica.Only K c.2 ∧ ∀ x ∈ c.1.effects, x.Only K from hall _ hcarries
  intro c hc
  induction hc with
  | refl =>
    refine ⟨⟨hr.log, fun q hq => ?_⟩, by simp⟩
    rcases List.mem_append.mp hq with hq | hq
    · exact hr.requests q (List.mem_append_left _ hq)
    · cases input with
      | request request => rw [List.mem_singleton.mp hq]; exact hi
      | _ => cases hq
  | tail _ hcarry ih => exact hcarry.only hi hnoop ih.1 ih.2

end PaxosLog
