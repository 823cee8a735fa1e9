import PaxosLog.Replica

/-!
# Promising and voting

An acceptor follows the highest ballot it has seen. It answers every candidate and every leader
with its own ballot, so that whoever holds a lower one learns of it. A ballot without an owner has
nobody to answer to and is ignored.

* `onPrepare` is `on_prepare` (§4.2 of the specification).
* `onAccept` is `on_accept` (§4.3). A refusal is an answer with a higher ballot; its form is that of
  a vote, and it names the slot that was asked for.
* `follow` is what both begin with: `observe_ballot`, and a delay if work would be left lying.
-/

namespace PaxosLog.Turn

variable {ρ σ : Type} [RandomSource ρ]

/-- Follows a ballot. If that is a change and work would be left lying, another election is
scheduled. -/
def follow (t : Turn ρ σ) (ballot : Ballot) : Except Fault (Turn ρ σ) :=
  if t.ballot < ballot then (t.observeBallot ballot).scheduleBackoffIfNeeded else .ok t

/-- Answers a candidate with the own ballot and everything known from the asked slot on. -/
def onPrepare (t : Turn ρ σ) (m : Prepare) : Except Fault (Turn ρ σ) :=
  match m.ballot.owner with
  | none => .ok t
  | some candidate => do
    let t ← t.follow m.ballot
    return t.emit (.send candidate (.promise ⟨t.ballot, t.id, t.log.promised m.start⟩))

/-- Votes for a proposal unless a higher ballot came before, and answers with the own ballot. -/
def onAccept (t : Turn ρ σ) (m : Accept) : Except Fault (Turn ρ σ) :=
  match m.ballot.owner with
  | none => .ok t
  | some proposer => do
    let t ←
      if m.ballot < t.ballot then pure t
      else do
        let t ← t.follow m.ballot
        let (log, displaced) ← t.log.vote m.slot m.ballot m.command
        pure (t.withLog log displaced.toList)
    return t.emit (.send proposer (.accepted ⟨t.ballot, m.slot, t.id⟩))

end PaxosLog.Turn
