import PaxosLog.Log.Entry

/-!
# The replicated log

Entries by slot, the slot to be executed next, and the highest slot known to exist. Slot 0 holds a
chosen no-op from the start. What a slot holds is `log.get? slot`; what peers report is folded in
by `Log.vote`, `Log.learn` and `Log.merge`, each of which hands out the requests whose slots were
lost to other commands.

| here | operation of the log |
|---|---|
| `empty` | `new` |
| `get?`, `state` | `get`, `state` |
| `insert`, `observe`, `allocate` | `insert`, `observe_slot`, `allocate_slot` |
| `promised` | `promised_entries` |
| `hasOwnedUncommitted` | `has_owned_uncommitted` |
| `committed` | `committed` |
| `vote` | what `on_accept` does with the log |
| `learn` | what `on_commit` does with the log |
| `adopt`, `merge` | one round of `merge`, and all of them |

`advance_cursor` is part of the execution of an entry, since what is executed takes its request out
of the log as well. `set` stands for a change of an entry in place (`get_mut`).

| local entry | reported entry | after `merge` |
|---|---|---|
| none | any | as reported |
| chosen | any | unchanged |
| vote | chosen | as reported |
| vote under `b` | vote under a ballot above `b` | as reported |
| vote under `b` | vote under another ballot | unchanged |

Out of scope: truncation and persistence. A log only grows, and is gone with its replica.
-/

namespace PaxosLog

/-- What a replica knows about all slots. -/
structure Log where
  entries : SlotMap LogEntry
  /-- The slot to be executed next. -/
  executeCursor : Slot
  /-- The highest slot known to exist. -/
  highestSlot : Slot
deriving DecidableEq

/-- What is known about one slot. -/
inductive SlotState where
  | absent
  | accepted (e : LogEntry)
  | committed (e : LogEntry)
deriving DecidableEq

namespace Log

/-- Only the sentinel is known. -/
def empty : Log :=
  ⟨(∅ : SlotMap LogEntry).insert Slot.sentinel (LogEntry.chosen Ballot.zero .noop),
    Slot.first, Slot.sentinel⟩

/-- The entry at a slot. -/
def get? (log : Log) (s : Slot) : Option LogEntry := log.entries[s]?

/-- What is known about a slot. -/
def state (log : Log) (s : Slot) : SlotState :=
  match log.get? s with
  | none => .absent
  | some e => if e.isCommitted then .committed e else .accepted e

/-- The slot `s` exists. -/
def observe (log : Log) (s : Slot) : Log :=
  if log.highestSlot < s then { log with highestSlot := s } else log

/-- Puts an entry at a slot, whatever was there. -/
def set (log : Log) (s : Slot) (e : LogEntry) : Log :=
  { log with entries := log.entries.insert s e }

/-- Puts a new entry at a slot that must not hold one. -/
def insert (log : Log) (s : Slot) (e : LogEntry) : Except Fault Log :=
  if (log.get? s).isSome then .error (.slotTaken s) else .ok ((log.observe s).set s e)

@[simp] theorem get?_empty (s : Slot) :
    empty.get? s =
      if s = Slot.sentinel then some (LogEntry.chosen Ballot.zero .noop) else none := by
  by_cases h : Slot.sentinel = s
  · simp [get?, empty, h]
  · simp [get?, empty, h, Ne.symm h]

@[simp] theorem get?_set (log : Log) (s t : Slot) (e : LogEntry) :
    (log.set s e).get? t = if s = t then some e else log.get? t := by
  simp [get?, set, Std.ExtTreeMap.getElem?_insert]

@[simp] theorem get?_observe (log : Log) (s t : Slot) : (log.observe s).get? t = log.get? t := by
  unfold observe get?
  split <;> rfl

theorem highestSlot_observe (log : Log) (s : Slot) :
    (log.observe s).highestSlot = max log.highestSlot s := by
  show _ = if log.highestSlot ≤ s then s else log.highestSlot
  unfold observe
  split <;> grind

/-- Takes the slot after the highest one. -/
def allocate (log : Log) : Except Fault (Slot × Log) :=
  log.highestSlot.next.map fun s => (s, { log with highestSlot := s })

/-- How many slots there are from the cursor up to the highest one. -/
def span (log : Log) : Nat := log.highestSlot.toNat + 1 - log.executeCursor.toNat

/-! ## Learning from peers -/

/-- Votes for a command under a ballot, unless the slot holds a chosen one or a vote under a
ballot that is not lower. -/
def vote (log : Log) (s : Slot) (ballot : Ballot) (command : Command) :
    Except Fault (Log × Option ClientRequest) :=
  let log := log.observe s
  match log.get? s with
  | none => (log.insert s (.vote ballot command)).map (·, none)
  | some e =>
    if e.isCommitted then .ok (log, none)
    else if e.ballot < ballot then
      (e.overwrite ballot command).map fun r => (log.set s r.1, r.2)
    else .ok (log, none)

/-- Takes a command as chosen, unless the slot holds a chosen one. -/
def learn (log : Log) (s : Slot) (ballot : Ballot) (command : Command) :
    Except Fault (Log × Option ClientRequest) :=
  let log := log.observe s
  match log.get? s with
  | none => (log.insert s (.chosen ballot command)).map (·, none)
  | some e =>
    if e.isCommitted then .ok (log, none)
    else (e.overwrite ballot command).map fun r => (log.set s r.1.commit, r.2)

/-- Folds in what a promise reports about one slot. Nothing is ever learned about the sentinel. -/
def adopt (log : Log) (s : Slot) (r : PromisedEntry) :
    Except Fault (Log × Option ClientRequest) :=
  if s = Slot.sentinel then .ok (log, none)
  else if r.committed then log.learn s r.ballot r.command
  else log.vote s r.ballot r.command

/-- Folds in everything a promise reports, in ascending order of the slots. The requests that lost
their slots come out in that order, after those that were handed out before. -/
def merge (log : Log) (reported : SlotMap PromisedEntry) :
    Except Fault (Log × List ClientRequest) :=
  reported.toList.foldlM
    (fun (log, displaced) (s, r) =>
      (log.adopt s r).map fun (log, request) => (log, displaced ++ request.toList))
    (log, [])

/-! ## Reports -/

/-- Everything known from slot `start` on, as a promise reports it. The sentinel is left out. -/
def promised (log : Log) (start : Slot) : SlotMap PromisedEntry :=
  (log.entries.filter fun s _ => max start Slot.first ≤ s && s ≤ log.highestSlot).map
    fun _ e => e.promised

/-- Some slot from the cursor on holds a vote for the command of a request. -/
def hasOwnedUncommitted (log : Log) : Bool :=
  log.entries.toList.any fun (s, e) =>
    log.executeCursor ≤ s && !e.isCommitted && e.request.isSome

/-- The entries from the first slot on, in ascending order of the slots. -/
def toList (log : Log) : List (Slot × LogEntry) :=
  log.entries.toList.filter fun (s, _) => Slot.first ≤ s

/-- The chosen entries from the first slot on, in ascending order of the slots. -/
def committed (log : Log) : List (Slot × LogEntry) :=
  log.toList.filter fun (_, e) => e.isCommitted

/-- The requests that entries own. -/
def requests (log : Log) : List ClientRequest :=
  log.entries.toList.filterMap fun (_, e) => e.request

end Log

end PaxosLog
