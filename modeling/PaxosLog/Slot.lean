import PaxosLog.Fault
import Std.Data.ExtTreeMap

/-!
# Slots

A slot is a position in the agreed sequence of commands. Slot 0 is the sentinel: it is chosen from
the start and never executed, so commands live from slot 1 on. `SlotMap` is the finite map from
slots that logs and promises are made of; it lists its slots in ascending order.

* `Slot.sentinel`, `Slot.first` and `Slot.next` are `SENTINEL`, `FIRST` and `next`; `Slot.text` is
  how a slot is displayed.
* `SlotMap.ofPairs` is how a map is collected from a list: the last entry of a slot counts.
-/

namespace PaxosLog

/-- A position in the log. -/
abbrev Slot := UInt64

namespace Slot

/-- The slot that is chosen from the start. -/
def sentinel : Slot := 0

/-- The first slot that can hold a command. -/
def first : Slot := 1

/-- The slot after `s`. -/
def next (s : Slot) : Except Fault Slot := checkedSucc s

/-- The displayed form of a slot, such as `slot(7)`. -/
def text (s : Slot) : String := "slot(" ++ toString s.toNat ++ ")"

end Slot

/-- Finitely many slots with a value each, in ascending order of the slots. -/
abbrev SlotMap (α : Type) := Std.ExtTreeMap Slot α compare

namespace SlotMap

/-- The map of a list of pairs. Of several pairs for one slot the last one counts. -/
def ofPairs {α : Type} (pairs : List (Slot × α)) : SlotMap α :=
  pairs.foldl (fun m p => m.insert p.1 p.2) ∅

end SlotMap

end PaxosLog
