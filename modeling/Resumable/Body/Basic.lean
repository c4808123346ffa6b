import Resumable.Instruction.Basic

/-!
# Method bodies

A body is a list of instructions with a supply of new labels.  Positions count all instructions,
labels included.  `Body.labelPositions` finds the places of all labels, and fails unless each label
is placed once and each jump has a place to go to.
-/

namespace Resumable

/-- What can be wrong with the labels of a body. -/
inductive LabelError
  | duplicate (label : Label)
  | undefined (label : Label)
deriving DecidableEq

def LabelError.message : LabelError → String
  | duplicate l => s!"label {l.text} is placed more than once"
  | undefined l => s!"label {l.text} is used but never placed"

/-- The labels that an instruction places or may jump to. -/
def Instruction.labels (i : Instruction) : List Label := i.placed?.toList ++ i.targets

/-- A list of instructions, and the number of the next new label. -/
structure Body where
  instructions : List Instruction
  nextLabel : UInt32
deriving DecidableEq

namespace Body

def empty : Body := ⟨[], 0⟩

/-- A body whose new labels differ from all labels in the instructions. -/
def ofList (instructions : List Instruction) : Body :=
  ⟨instructions, ((instructions.flatMap Instruction.labels).map (·.number + 1)).foldl max 0⟩

/-- A new label, and the body that won't give it again. -/
def newLabel (b : Body) : Label × Body := (⟨b.nextLabel⟩, { b with nextLabel := b.nextLabel + 1 })

/-- As many new labels as asked for, in ascending order. -/
def newLabels (b : Body) : Nat → List Label × Body
  | 0 => ([], b)
  | n + 1 =>
    let (l, b) := b.newLabel
    let (ls, b) := b.newLabels n
    (l :: ls, b)

/-- The body with an instruction at its end. -/
def push (b : Body) (i : Instruction) : Body := { b with instructions := b.instructions ++ [i] }

def length (b : Body) : Nat := b.instructions.length

/-- The instruction at a position. -/
def get? (b : Body) (position : Nat) : Option Instruction := b.instructions[position]?

/-- The positions from `start` on of the instructions that have a property. -/
def positionsFrom (p : Instruction → Bool) : (start : Nat) → List Instruction → List Nat
  | _, [] => []
  | n, i :: rest => if p i then n :: positionsFrom p (n + 1) rest else positionsFrom p (n + 1) rest

/-- The positions of the instructions that have a property. -/
def positions (b : Body) (p : Instruction → Bool) : List Nat := positionsFrom p 0 b.instructions

/-- The first position at which a label is placed. -/
def position? (b : Body) (l : Label) : Option Nat :=
  b.instructions.findIdx? fun i => i.placed? = some l

/-- The labels placed by the instructions, with their positions from `start` on. -/
def placesFrom : (start : Nat) → List Instruction → List (Label × Nat)
  | _, [] => []
  | n, .label l :: rest => (l, n) :: placesFrom (n + 1) rest
  | n, _ :: rest => placesFrom (n + 1) rest

/-- The first label that the list repeats, given the labels seen before. -/
def firstRepeated? (seen : List Label) : List Label → Option Label
  | [] => none
  | l :: rest => if l ∈ seen then some l else firstRepeated? (l :: seen) rest

/-- The place of each label. -/
def labelPositions (b : Body) : Except LabelError (List (Label × Nat)) :=
  let places := placesFrom 0 b.instructions
  let placed := places.map (·.1)
  match firstRepeated? [] placed with
  | some l => .error (.duplicate l)
  | none =>
    match (b.instructions.flatMap Instruction.targets).find? (· ∉ placed) with
    | some l => .error (.undefined l)
    | none => .ok places

end Body

end Resumable
