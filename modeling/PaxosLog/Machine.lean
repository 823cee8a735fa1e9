import PaxosLog.Command
import PaxosLog.Decimal

/-!
# State machines

What the agreed commands are run on. `StateMachine.execute` is `execute`; it also hands back the
machine, which moves on with every command. `Journal` is the machine that keeps every command and
answers how many there are.

Out of scope: machines that fail. Every command has a result.
-/

namespace PaxosLog

/-- A state on which commands can be executed. -/
class StateMachine (σ : Type) where
  /-- The result of a command, and the state after it. -/
  execute : Bytes → σ → Bytes × σ

/-- The commands executed so far, in order. -/
structure Journal where
  applied : List Bytes
deriving DecidableEq, Repr

namespace Journal

/-- Nothing executed yet. -/
def empty : Journal := ⟨[]⟩

/-- Keeps the command and answers the number of commands kept, in decimal digits. -/
def execute (command : Bytes) (j : Journal) : Bytes × Journal :=
  (Decimal.bytes (j.applied.length + 1), ⟨j.applied ++ [command]⟩)

instance : StateMachine Journal := ⟨execute⟩

end Journal

end PaxosLog
