import PaxosLog.Replica

/-!
# Learning and executing

A learner takes chosen commands into its log and runs them on the state machine, in the order of
their slots, up to the first slot whose command is not known to be chosen.

* `onCommit` is `on_commit` (§4.3 of the specification).
* `executeReady` is `execute_ready` (§4.4). Its loop ends where the cursor is above the highest
  slot, so it is given as many rounds as there are slots up to there (`executeUpTo`).
* `executeEntry` is one round of the loop: `advance_cursor`, `take_request`, and the state machine.

Out of scope: the warning about announcements that contradict each other. The first one counts.
-/

namespace PaxosLog.Turn

variable {ρ σ : Type} [StateMachine σ]

/-- Executes the chosen entry at the cursor and moves the cursor on. A no-op does not reach the
state machine. A request that the entry owns is answered with the result. -/
def executeEntry (t : Turn ρ σ) (e : LogEntry) : Except Fault (Turn ρ σ) :=
  let slot := t.log.executeCursor
  slot.next.map fun cursor =>
    let log := { t.log.set slot e.withoutRequest with executeCursor := cursor }
    match e.command with
    | .noop => { t with log }.emitAll (e.request.toList.map .retry)
    | .client command =>
      let (value, machine) := StateMachine.execute command t.machine
      { t with log, machine }.emitAll
        (.execute slot command value ::
          e.request.toList.map (.reply · ⟨slot, command, value⟩))

/-- Executes at most `count` chosen entries from the cursor on. -/
def executeUpTo : (count : Nat) → Turn ρ σ → Except Fault (Turn ρ σ)
  | 0, t => .ok t
  | count + 1, t =>
    match t.log.get? t.log.executeCursor with
    | none => .ok t
    | some e => if e.isCommitted then t.executeEntry e >>= executeUpTo count else .ok t

/-- Executes every chosen entry from the cursor on, up to the first slot that is not chosen. There
is none above the highest slot. -/
def executeReady (t : Turn ρ σ) : Except Fault (Turn ρ σ) := t.executeUpTo t.log.span

/-- Learns that a command was chosen. Ballot and leadership are not touched: the announcement says
something about a slot, not about who leads. -/
def onCommit (t : Turn ρ σ) (m : Commit) : Except Fault (Turn ρ σ) := do
  if m.slot = Slot.sentinel then
    return t
  let (log, displaced) ← t.log.learn m.slot m.ballot m.command
  (t.withLog log displaced.toList).executeReady

end PaxosLog.Turn
