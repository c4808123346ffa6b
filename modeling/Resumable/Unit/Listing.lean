import Resumable.Instruction.Text
import Resumable.Unit.Basic

/-!
# Listings of units

A listing names the unit and, for each method, its signature and sizes, its numbered instructions
and the frames of its stack map.  Every line of it ends in a line feed.
-/

namespace Resumable

/-- The entry's label and frame. -/
def StackMapEntry.text (e : StackMapEntry) : String := e.label.text ++ ": " ++ e.frame.text

namespace Method

/-- The first line of the method's listing. -/
def heading (m : Method) : String :=
  s!"method {m.signature} access: 0x" ++ Text.hexPadded 4 m.access.bits.toNat ++
    s!" max_stack: {m.maxStack.toNat} max_locals: {m.maxLocals.toNat}"

/-- The lines of the method's listing. -/
def listing (m : Method) : List String :=
  "" :: m.heading ::
    m.body.instructions.mapIdx (fun position i => s!"{position}\t{i.text}") ++
    m.stackMap.map fun entry => "  frame " ++ entry.text

end Method

namespace CompiledUnit

/-- The unit's listing. -/
def listing (u : CompiledUnit) : String :=
  let heading := s!"unit {u.name}"
  let note := if u.flags.isInstrumented then ["  (instrumented)"] else []
  String.join ((heading :: note ++ u.methods.flatMap Method.listing).map (· ++ "\n"))

end CompiledUnit

end Resumable
