/-!
# Commands

What a slot agrees on: the bytes of a client's command, or the no-op with which a new leader fills
a slot that it found empty. `Command.payload?` is `payload`.

Out of scope: what the bytes mean. Only the state machine looks into them.
-/

namespace PaxosLog

/-- A sequence of bytes whose meaning belongs to the application. -/
abbrev Bytes := List UInt8

/-- The value of a slot. -/
inductive Command where
  /-- Fills a gap. It never reaches the state machine. -/
  | noop
  /-- A client's command. -/
  | client (payload : Bytes)
deriving DecidableEq, Repr

/-- The client's bytes, if there are any. -/
def Command.payload? : Command → Option Bytes
  | .noop => none
  | .client payload => some payload

end PaxosLog
