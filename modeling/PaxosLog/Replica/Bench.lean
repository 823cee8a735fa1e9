import PaxosLog.Random.Script
import PaxosLog.Replica.Step

/-!
# A replica on the bench

One replica under manual control: every input is given by hand, random numbers come from a script,
the clock stands until it is set, and requests that the replica hands back lie in a tray until they
are submitted again or thrown away. Its state machine is the journal.

`Act` lists what can be done, `Bench.step` does it, and `Report` is what can be seen of it. Acts are
tied to runs of a replica in the theory (`Bench.run_of_acts`).

Out of scope: what happens after a fault. The bench ends with it, and a step that faults has no
report, although effects may have come before the fault.
-/

namespace PaxosLog

/-- A replica, its clients, the tray of requests it handed back (oldest first), and the clock. -/
structure Bench where
  replica : Replica Script Journal
  clients : Clients
  tray : List ClientRequest
  now : Duration

namespace Bench

/-- What can be done on the bench. -/
inductive Act where
  /-- A client submits a command. -/
  | submit (command : Bytes)
  /-- A message arrives. -/
  | deliver (m : Message)
  /-- An election is started. -/
  | elect
  /-- The delay before another election passes. -/
  | backoffElapsed
  /-- The oldest request in the tray is submitted again. -/
  | resubmit
  /-- The oldest request in the tray is thrown away. -/
  | discard
  /-- A client goes away. -/
  | hangUp (ticket : Nat)
  /-- The clock is set. -/
  | setClock (now : Duration)
  /-- Nothing is done but looking. -/
  | look
deriving DecidableEq

/-- What came of an act: whether there was something to act on, where that is a question, the
effects of the replica, and the requests that were seen to end. -/
structure Report where
  applied : Option Bool
  effects : List Effect
  ended : List (Nat × Receiver)
deriving DecidableEq

/-- A fresh replica on the bench, its clock at zero. -/
def start (id : ReplicaId) (n : Nat) (config : Config) (draws : List UInt64) :
    Except Failure Bench :=
  (Replica.start id n config ⟨draws⟩ Journal.empty).map fun replica =>
    ⟨replica, .none, [], .zero⟩

/-- The clients and the tray after an effect. -/
def absorb (b : Bench) : Effect → Bench
  | .retry request => { b with tray := b.tray ++ [request] }
  | .reply request reply => { b with clients := b.clients.answer request reply }
  | _ => b

/-- Gives the replica an input. -/
def feed (b : Bench) (input : Input) : Except Fault (List Effect × Bench) :=
  (b.replica.step b.now input).map fun (replica, effects) =>
    (effects, effects.foldl absorb { b with replica })

/-- The clients look at what has ended. -/
def report (applied : Option Bool) (effects : List Effect) (b : Bench) : Report × Bench :=
  let (ended, clients) := b.clients.collect
  (⟨applied, effects, ended⟩, { b with clients })

/-- Carries out an act. -/
def step (b : Bench) : Act → Except Fault (Report × Bench)
  | .submit command =>
    let (request, clients) := b.clients.submit command
    (feed { b with clients } (.request request)).map fun (effects, b) => b.report none effects
  | .deliver m => (b.feed (.message m)).map fun (effects, b) => b.report none effects
  | .elect => (b.feed .elect).map fun (effects, b) => b.report none effects
  | .backoffElapsed => (b.feed .backoffElapsed).map fun (effects, b) => b.report none effects
  | .resubmit =>
    match b.tray with
    | [] => .ok (b.report (some false) [])
    | request :: tray =>
      (feed { b with tray } (.request request)).map fun (effects, b) =>
        b.report (some true) effects
  | .discard =>
    match b.tray with
    | [] => .ok (b.report (some false) [])
    | request :: tray =>
      .ok (report (some true) [] { b with tray, clients := b.clients.lose [request] })
  | .hangUp ticket =>
    let (had, clients) := b.clients.hangUp ticket
    .ok (report (some had) [] { b with clients })
  | .setClock now => .ok (report none [] { b with now })
  | .look => .ok (b.report none [])

end Bench

end PaxosLog
