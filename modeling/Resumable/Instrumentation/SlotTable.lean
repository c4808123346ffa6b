import Resumable.Unit.Basic

/-!
# The slots of instrumentation code

Code that saves and restores a method uses four local slots of its own, right after the method's.
-/

namespace Resumable

/-- The local slots that instrumentation code uses. -/
structure SlotTable where
  /-- The slot that holds the capability on entry. -/
  param : UInt16
  /-- The capability. -/
  capability : UInt16
  /-- The array that the operand stack is saved in. -/
  stackArray : UInt16
  /-- The array that the locals are saved in. -/
  localsArray : UInt16
  /-- A reference on its way. -/
  scratch : UInt16
  /-- The number of the method's own slots. -/
  ownSlots : UInt16
deriving DecidableEq

namespace SlotTable

/-- The number of slots that a method gets in addition. -/
def extraSlots : Nat := 4

/-- The slots for a method with the given flags and number of locals.  Slots that don't exist are
taken to be the last one. -/
def make (access : AccessFlags) (maxLocals : UInt16) : SlotTable :=
  let slot (offset : Nat) := UInt16.ofNat (min 0xFFFF (maxLocals.toNat + offset))
  { param := if access.isStatic then 0 else 1
    capability := slot 0
    stackArray := slot 1
    localsArray := slot 2
    scratch := slot 3
    ownSlots := maxLocals }

/-- The number of locals of the instrumented method. -/
def maxLocals (t : SlotTable) : Nat := t.ownSlots.toNat + extraSlots

end SlotTable

end Resumable
