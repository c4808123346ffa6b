import Resumable.Analysis.StackMap

/-!
# Assembling methods

A draft of a method may leave out its sizes, which then follow from its body, as does the stack map.
A draft that doesn't pass analysis becomes a method all the same, with the largest operand stack and
without a stack map.
-/

namespace Resumable

/-- A method whose sizes may be left open. -/
structure MethodDraft where
  name : String
  type : MethodType
  access : AccessFlags
  maxStack : Option UInt16
  maxLocals : Option UInt16
  body : List Instruction

/-- The number of locals up to the last one that the instruction uses. -/
def Instruction.usedLocals : Instruction → Nat
  | load kind index | store kind index => index.toNat + if kind.isWide then 2 else 1
  | increment index _ | returnSubroutine index => index.toNat + 1
  | _ => 0

namespace MethodDraft

/-- The number of locals that the parameters and the body need. -/
def requiredLocals (d : MethodDraft) : Nat :=
  let receiver := if d.access.isStatic then 0 else 1
  max (receiver + d.type.slots) ((d.body.map Instruction.usedLocals).foldl max 0)

/-- The method, in the unit named `owner`. -/
def build (owner : String) (d : MethodDraft) : Method :=
  let m : Method :=
    { name := d.name
      type := d.type
      access := d.access
      maxStack := d.maxStack.getD (if d.access.hasNoBody then 0 else 0xFFFF)
      maxLocals := d.maxLocals.getD (UInt16.ofNat d.requiredLocals)
      body := Body.ofList d.body
      stackMap := [] }
  if d.access.hasNoBody then m
  else
    match m.analyze owner with
    | .error _ => m
    | .ok frames =>
      { m with
        maxStack := d.maxStack.getD (UInt16.ofNat frames.maxStack)
        stackMap := m.body.stackMap frames }

end MethodDraft

end Resumable
