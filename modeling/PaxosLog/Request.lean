import PaxosLog.Command
import PaxosLog.Slot

/-!
# Client requests and their replies

A request is owned by one holder at a time: a queue, a log entry, or whoever is to submit it again.
It is used up by its reply. The client holds the other end, a `Receiver`, which sees the reply, or
that the request was dropped without one. `Exchange` is a request together with its receiver, and
`Clients` keeps the receivers of many requests, numbered by the tickets of the requests.

* `Exchange.start`, `Exchange.command?`, `Exchange.isAbandoned?` and `Exchange.answer` are `new`,
  `command`, `is_abandoned` and `reply` of a request.
* `Receiver` is the receiving end of the channel that a reply takes: it waits until it is answered
  or its sender is dropped, and hands out a reply once (`Receiver.poll`).
* `Clients.submit`, `Clients.answer` and `Clients.lose` are the sending of a request, its reply, and
  its loss with whatever held it. A ticket tells requests apart that have the same command.
-/

namespace PaxosLog

/-- A command that a client waits for. The ticket tells it from every other request, also from
those that ask for the same command. -/
structure ClientRequest where
  ticket : Nat
  command : Bytes
deriving DecidableEq, Repr

/-- What a client learns once its command was executed. -/
structure CommandReply where
  slot : Slot
  command : Bytes
  value : Bytes
deriving DecidableEq, Repr

/-- The client's end of a request. -/
inductive Receiver where
  /-- The request is still held by somebody. -/
  | waiting
  /-- The reply has come and was not looked at yet. -/
  | answered (reply : CommandReply)
  /-- The request was dropped, which was not noticed yet. -/
  | dropped
  /-- The client went away, or has seen how its request ended. -/
  | gone
deriving DecidableEq, Repr

namespace Receiver

/-- The reply arrives. A client that went away does not see it. -/
def answer (reply : CommandReply) : Receiver → Receiver
  | .waiting => .answered reply
  | r => r

/-- The request is dropped without a reply. -/
def lose : Receiver → Receiver
  | .waiting => .dropped
  | r => r

/-- The client goes away; `true` if it had not done so before. -/
def hangUp : Receiver → Bool × Receiver
  | .gone => (false, .gone)
  | _ => (true, .gone)

/-- The client looks. What has ended is seen once, and a waiting receiver stays as it is. -/
def poll : Receiver → Receiver × Receiver
  | .waiting => (.waiting, .waiting)
  | r => (r, .gone)

end Receiver

/-- A request, until it is used up, and its receiver. -/
structure Exchange where
  request : Option ClientRequest
  receiver : Receiver
deriving DecidableEq, Repr

namespace Exchange

/-- A new request for `command`. -/
def start (command : Bytes) : Exchange := ⟨some ⟨0, command⟩, .waiting⟩

/-- The request's command. -/
def command? (e : Exchange) : Option Bytes := e.request.map (·.command)

/-- Whether the client of the request went away. -/
def isAbandoned? (e : Exchange) : Option Bool := e.request.map fun _ => e.receiver = .gone

/-- Answers the request, if it is not used up; `true` if so. -/
def answer (e : Exchange) (reply : CommandReply) : Bool × Exchange :=
  match e.request with
  | none => (false, e)
  | some _ => (true, ⟨none, e.receiver.answer reply⟩)

/-- Drops the request, if it is not used up; `true` if so. -/
def drop (e : Exchange) : Bool × Exchange :=
  match e.request with
  | none => (false, e)
  | some _ => (true, ⟨none, e.receiver.lose⟩)

/-- The client goes away; `true` if it had not done so before. -/
def hangUp (e : Exchange) : Bool × Exchange :=
  let (had, receiver) := e.receiver.hangUp
  (had, { e with receiver })

/-- The client looks at its receiver. -/
def poll (e : Exchange) : Receiver × Exchange :=
  let (seen, receiver) := e.receiver.poll
  (seen, { e with receiver })

end Exchange

/-- The receivers of all requests so far; the ticket of a request is its place. -/
structure Clients where
  receivers : List Receiver
deriving DecidableEq, Repr

namespace Clients

/-- No requests yet. -/
def none : Clients := ⟨[]⟩

/-- A new request for `command`. -/
def submit (c : Clients) (command : Bytes) : ClientRequest × Clients :=
  (⟨c.receivers.length, command⟩, ⟨c.receivers ++ [.waiting]⟩)

/-- The reply to a request arrives. -/
def answer (c : Clients) (request : ClientRequest) (reply : CommandReply) : Clients :=
  ⟨c.receivers.modify request.ticket (Receiver.answer reply)⟩

/-- Requests are dropped without a reply. -/
def lose (c : Clients) (requests : List ClientRequest) : Clients :=
  requests.foldl (fun c r => ⟨c.receivers.modify r.ticket Receiver.lose⟩) c

/-- Client number `ticket` goes away; `true` if it had not done so before. -/
def hangUp (c : Clients) (ticket : Nat) : Bool × Clients :=
  match c.receivers[ticket]? with
  | Option.none => (false, c)
  | some r =>
    let (had, r) := r.hangUp
    (had, ⟨c.receivers.set ticket r⟩)

/-- Every client looks: the requests that have ended since, by ticket, and the clients after it. -/
def collect (c : Clients) : List (Nat × Receiver) × Clients :=
  let polled := c.receivers.map Receiver.poll
  let seen := (polled.zipIdx.map fun p => (p.2, p.1.1)).filter fun p =>
    match p.2 with
    | .answered _ => true
    | .dropped => true
    | _ => false
  (seen, ⟨polled.map (·.2)⟩)

end Clients

end PaxosLog
