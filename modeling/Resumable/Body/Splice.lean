import Resumable.Body.Basic

/-!
# Editing a body in many places

An edit inserts instructions before and after a position, and may remove the instruction there.  The
positions of all edits refer to the body as it was, so that edits don't have to know of each other.
Edits at one position apply in the order given; those beyond the end append their instructions.
-/

namespace Resumable

/-- A change to a body at one position. -/
structure Edit where
  position : Nat
  before : List Instruction
  after : List Instruction
  remove : Bool

namespace Edit

/-- Inserts instructions before a position. -/
def insertBefore (position : Nat) (before : List Instruction) : Edit := ⟨position, before, [], false⟩

/-- Puts instructions in the place of the one at a position. -/
def replace (position : Nat) (before : List Instruction) : Edit := ⟨position, before, [], true⟩

/-- Inserts instructions on both sides of the one at a position. -/
def surround (position : Nat) (before after : List Instruction) : Edit :=
  ⟨position, before, after, false⟩

/-- The instructions of edits beyond the end. -/
def appended (edits : List Edit) : List Instruction :=
  edits.flatMap fun e => e.before ++ e.after

/-- Applies edits in ascending order of position to the instructions from `position` on. -/
def apply (position : Nat) : List Instruction → List Edit → List Instruction
  | [], edits => appended edits
  | i :: rest, edits =>
    let here := edits.takeWhile (·.position = position)
    here.flatMap (·.before) ++ (if here.any (·.remove) then [] else [i]) ++
      here.flatMap (·.after) ++
      apply (position + 1) rest (edits.dropWhile (·.position = position))

end Edit

namespace Body

/-- Applies edits in any order. -/
def splice (b : Body) (edits : List Edit) : Body :=
  let sorted := edits.mergeSort fun d e => d.position ≤ e.position
  { b with instructions := Edit.apply 0 b.instructions sorted }

end Body

end Resumable
