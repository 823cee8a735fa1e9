import PaxosLog.Replica.Learner

/-!
# Proposing

A proposer first wins an election: it opens a ballot, asks for promises, and folds what they report
into its log, so that with a quorum of promises it knows every command that may have been chosen.
It then takes over: every slot that is not known to be chosen is proposed again under the new
ballot, gaps with a no-op. From then on it leads and proposes each request at the next slot. A
proposal is chosen once a quorum voted for it.

| here | operation of a replica |
|---|---|
| `elect` | `start_election` (§4.2 of the specification) |
| `onPromise` | `on_promise`; its `merge` is `Log.merge` |
| `takeOver`, `reproposeFrom`, `repropose` | `become_leader`, its loop, and one round of the loop |
| `propose` | `propose` (§4.3) |
| `onAccepted` | `on_accepted` |
| `countVotes`, `choose` | `check_phase2`, `commit_slot` |
| `onRequest`, `onBackoffElapsed` | `on_client_request` (§4.5), `on_backoff_elapsed` (§4.6) |

`countPromises` and `askForVotes` are parts that two of these operations have in common. The loop of
`become_leader` goes up to the highest slot at its start, which nothing in it moves
(`reproposeFrom` counts these slots), and takes the successor of the last slot as well: at the
largest slot it faults.
-/

namespace PaxosLog.Turn

variable {ρ σ : Type} [StateMachine σ]

/-! ## Choosing -/

/-- Announces the entry at `slot` as chosen and executes what became ready. -/
def choose (t : Turn ρ σ) (slot : Slot) (e : LogEntry) : Except Fault (Turn ρ σ) :=
  ({ t with log := t.log.set slot e.commit }.emit
    (.broadcast (.commit ⟨e.ballot, slot, e.command⟩))).executeReady

/-- Chooses the command of a slot if a quorum voted for it. -/
def countVotes (t : Turn ρ σ) (slot : Slot) : Except Fault (Turn ρ σ) :=
  match t.log.get? slot with
  | none => .ok t
  | some e =>
    if !e.isCommitted && t.quorums.phase2Reached e.acks then t.choose slot e else .ok t

/-- Asks for votes for a command at a slot and counts the own one. -/
def askForVotes (t : Turn ρ σ) (slot : Slot) (command : Command) : Except Fault (Turn ρ σ) :=
  (t.emit (.broadcast (.accept ⟨t.ballot, slot, command⟩))).countVotes slot

/-- Proposes the command of a request at the slot after the highest one. Only a leader does. -/
def propose (t : Turn ρ σ) (request : ClientRequest) : Except Fault (Turn ρ σ) := do
  unless t.active do
    throw .notLeading
  let (slot, log) ← t.log.allocate
  let command := Command.client request.command
  let log ← log.insert slot (.proposal t.ballot command (some request) t.id t.now)
  { t with log }.askForVotes slot command

/-! ## Taking over -/

/-- Proposes what a slot holds under the current ballot: its command if it has a vote, a no-op if
it is a gap, and nothing if its command is chosen. -/
def repropose (t : Turn ρ σ) (slot : Slot) : Except Fault (Turn ρ σ) :=
  match t.log.get? slot with
  | none => do
    let log ← t.log.insert slot (.proposal t.ballot .noop none t.id t.now)
    { t with log }.askForVotes slot .noop
  | some e =>
    if e.isCommitted then .ok t
    else do
      let e ← e.repropose t.ballot t.id t.now
      { t with log := t.log.set slot e }.askForVotes slot e.command

/-- Proposes again what `count` slots from `slot` on hold. -/
def reproposeFrom : (count : Nat) → (slot : Slot) → Turn ρ σ → Except Fault (Turn ρ σ)
  | 0, _, t => .ok t
  | count + 1, slot, t => do
    let t ← t.repropose slot
    let slot ← slot.next
    reproposeFrom count slot t

/-- Becomes the leader: proposes again what the slots from the cursor up to the highest one hold,
then the waiting requests, and executes what became ready. -/
def takeOver (t : Turn ρ σ) : Except Fault (Turn ρ σ) := do
  let t := { t with active := true }
  let t ← t.reproposeFrom t.log.span t.log.executeCursor
  let waiting := t.pending
  let t ← waiting.foldlM propose { t with pending := [] }
  t.executeReady

/-- Takes over if a quorum promised. -/
def countPromises (t : Turn ρ σ) : Except Fault (Turn ρ σ) :=
  if t.quorums.phase1Reached t.promises then t.takeOver else .ok t

/-! ## Inputs of a proposer -/

/-- Opens a ballot and asks for promises. A leader does nothing. -/
def elect (t : Turn ρ σ) : Except Fault (Turn ρ σ) := do
  if t.active then
    return t
  let ballot ← t.ballot.next t.id
  ({ t with ballot, promises := Quorum.empty.ack t.id }.emit
    (.broadcast (.prepare ⟨ballot, t.log.executeCursor⟩))).countPromises

/-- Takes a request. A leader proposes it; any other replica keeps it and starts an election,
unless it has one in flight. -/
def onRequest (t : Turn ρ σ) (request : ClientRequest) : Except Fault (Turn ρ σ) :=
  if t.active then t.propose request
  else
    let t := { t with pending := t.pending ++ [request] }
    if t.ballot.isOwnedBy t.id then .ok t else t.elect

/-- The delay before another election has passed. -/
def onBackoffElapsed (t : Turn ρ σ) : Except Fault (Turn ρ σ) :=
  t.elect.map fun t => { t with backoff := t.backoff.fired }

/-- Takes a promise. A leader, and a replica with a higher ballot, ignores it. What it reports is
folded in; a ballot above the own one ends the election, and one that answers it counts. -/
def onPromise [RandomSource ρ] (t : Turn ρ σ) (m : Promise) : Except Fault (Turn ρ σ) := do
  if t.active ∨ m.ballot < t.ballot then
    return t
  let (log, displaced) ← t.log.merge m.log
  let t := t.withLog log displaced
  let t ←
    if t.ballot < m.ballot then (t.observeBallot m.ballot).scheduleBackoff
    else if m.ballot.isOwnedBy t.id then
      ({ t with promises := t.promises.ack m.sender } : Turn ρ σ).countPromises
    else pure t
  t.executeReady

/-- Takes a vote. It counts if it was given under the current ballot, to this replica, for what the
slot holds; a higher ballot ends the leadership. -/
def onAccepted [RandomSource ρ] (t : Turn ρ σ) (m : Accepted) : Except Fault (Turn ρ σ) :=
  match t.log.get? m.slot with
  | none => .ok t
  | some e =>
    if e.isCommitted ∨ m.ballot < e.ballot then .ok t
    else if t.ballot < m.ballot then (t.observeBallot m.ballot).scheduleBackoffIfNeeded
    else if m.ballot = t.ballot ∧ m.ballot = e.ballot ∧ m.ballot.isOwnedBy t.id then
      { t with log := t.log.set m.slot (e.ack m.sender) }.countVotes m.slot
    else .ok t

end PaxosLog.Turn
