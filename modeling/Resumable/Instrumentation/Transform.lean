import Resumable.Analysis.StackMap
import Resumable.Body.Splice
import Resumable.Instrumentation.Point
import Resumable.Instrumentation.Snapshot

/-!
# Making a method resumable

A resumable method starts with a prologue that looks at the capability's mode.  In normal mode the
method just runs.  In loading mode it pops its state, restores the frame of the point where it was
suspended and goes on from there.  Other modes are faults.

Where the method suspends itself, it saves its frame instead and leaves in saving mode.  Where it
calls a method that may suspend, it saves its frame beforehand; if the mode is saving afterwards, it
leaves as well, and it's resumed by repeating the call.
-/

namespace Resumable

/-- The labels of a prologue. -/
structure PrologueLabels where
  start : Label
  loading : Label
  saving : Label
  badMode : Label
  badPoint : Label
  /-- Where each point's frame is restored. -/
  points : List Label

/-- New labels for a prologue with the given number of points. -/
def Body.newPrologueLabels (b : Body) (points : Nat) : PrologueLabels × Body :=
  let (start, b) := b.newLabel
  let (loading, b) := b.newLabel
  let (saving, b) := b.newLabel
  let (badMode, b) := b.newLabel
  let (badPoint, b) := b.newLabel
  let (points, b) := b.newLabels points
  ({ start, loading, saving, badMode, badPoint, points }, b)

namespace ContinuationPoint

open Snapshot

/-- The operand stack with which the resumed method goes on.  A method that suspends itself has used
up the capability on top of the stack. -/
def restoredStack (p : ContinuationPoint) : List FrameValue :=
  match p.kind with
  | .suspend => p.frame.stack.drop 1
  | .save => p.frame.stack

/-- Restores the frame and goes on from the point. -/
def loadBlock (t : SlotTable) (p : ContinuationPoint) (here : Label) : List Instruction :=
  .label here :: loadStack t p.restoredStack ++ loadLocals t p.frame.locals ++
    [.goto p.restoreLabel]

/-- What stands in the place of the invocation where the method suspends itself. -/
def suspendBlock (t : SlotTable) (p : ContinuationPoint) : List Instruction :=
  .pop :: saveStack t p.restoredStack ++ saveLocals t p.frame.locals ++ pushState t p.id ++
    setMode t Capability.saving ++ leaveEarly p.returns ++ [.label p.restoreLabel]

/-- What comes before the call of a method that may suspend. -/
def saveBlock (t : SlotTable) (p : ContinuationPoint) : List Instruction :=
  saveStack t p.frame.stack ++ loadStack t p.frame.stack ++ saveLocals t p.frame.locals ++
    [.label p.restoreLabel]

/-- What comes after the call of a method that may suspend. -/
def afterSave (t : SlotTable) (p : ContinuationPoint) (proceed : Label) : List Instruction :=
  getMode t ++ [.const (.int Capability.saving), .ifCompare .notEqual proceed] ++
    pushState t p.id ++ leaveEarly p.returns ++ [.label proceed]

/-- The edits around the points, and the body whose labels they use. -/
def edits (t : SlotTable) : List ContinuationPoint → Body → List Edit × Body
  | [], b => ([], b)
  | p :: points, b =>
    match p.kind with
    | .suspend =>
      let (rest, b) := edits t points b
      (.replace p.position (p.suspendBlock t) :: rest, b)
    | .save =>
      let (proceed, b) := b.newLabel
      let (rest, b) := edits t points b
      (.surround p.position (p.saveBlock t) (p.afterSave t proceed) :: rest, b)

end ContinuationPoint

open Snapshot in
/-- What comes before the method's own code. -/
def prologue (t : SlotTable) (points : List ContinuationPoint) (l : PrologueLabels) :
    List Instruction :=
  [loadReference t.param, storeReference t.capability] ++ getMode t ++
    [.tableSwitch 0 l.badMode [l.start, l.saving, l.loading], .label l.loading] ++ popState t ++
    [loadReference t.scratch, .invoke .virtual Capability.getPoint,
      .tableSwitch 0 l.badPoint l.points] ++
    (points.zip l.points).flatMap (fun (p, here) => p.loadBlock t here) ++
    .label l.badMode :: fail "unrecognized continuation mode" ++
    .label l.saving :: fail "unexpected continuation mode (saving isn't allowed on entry)" ++
    .label l.badPoint :: fail "unrecognized continuation point id" ++
    [.label l.start]

namespace Method

/-- The method with the code for its points put into its body. -/
def weave (m : Method) (frames : Frames) : Method :=
  let table := SlotTable.make m.access m.maxLocals
  let (points, body) := m.body.locate frames m.type.returns
  let (labels, body) := body.newPrologueLabels points.length
  let (edits, body) := ContinuationPoint.edits table points body
  { m with
    maxLocals := UInt16.ofNat table.maxLocals
    body := body.splice (.insertBefore 0 (prologue table points labels) :: edits) }

/-- The method with the size of its stack and its stack map as they follow from its body. -/
def recompute (owner : String) (m : Method) : Except InstrumentError Method :=
  let m := { m with maxStack := UInt16.ofNat maxSlots }
  match m.analyze owner with
  | .error ⟨position, cause⟩ =>
    match cause with
    | .stackOverflow _ => .error (.limitExceeded m.signature .stack (maxSlots + 1))
    | _ => .error (.analysis m.signature true ⟨position, cause⟩)
  | .ok frames =>
    .ok { m with
      maxStack := UInt16.ofNat frames.maxStack
      stackMap := m.body.stackMap frames }

/-- The resumable form of a method that the unit `owner` declares. -/
def transform (owner : String) (m : Method) : Except InstrumentError Method := do
  m.checkSupported
  match m.analyze owner with
  | .error cause => throw (.analysis m.signature false cause)
  | .ok frames =>
    let needed := m.maxLocals.toNat + SlotTable.extraSlots
    if maxSlots < needed then throw (.limitExceeded m.signature .locals needed)
    (m.weave frames).recompute owner

end Method

end Resumable
