import Resumable.Analysis.Flow
import Resumable.Capability
import Resumable.Instrumentation.Error

/-!
# Continuation points

A method can be suspended where it suspends itself and where it calls another method that may
suspend, unless execution can't get there.  Points are numbered from zero, those of the first kind
before those of the second, and each gets a new label at which the resumed method goes on.
-/

namespace Resumable

/-- The two kinds of continuation points. -/
inductive PointKind
  /-- The method suspends itself. -/
  | suspend
  /-- The method calls another one that may suspend. -/
  | save
deriving DecidableEq

/-- A place where a method may be suspended and resumed. -/
structure ContinuationPoint where
  id : Nat
  kind : PointKind
  /-- The position of the invocation. -/
  position : Nat
  /-- The frame before the invocation. -/
  frame : Frame
  /-- Where the resumed method goes on. -/
  restoreLabel : Label
  /-- What the method returns. -/
  returns : Option ValueType
deriving DecidableEq

namespace Instruction

/-- True if the method that the instruction belongs to suspends itself. -/
def isSuspend (i : Instruction) : Bool := i.invokes .virtual Capability.suspend

/-- True if the instruction calls a method that may suspend. -/
def isSave (i : Instruction) : Bool := i.invoked?.any fun (_, method) => method.type.isEligible

/-- True if the instruction can't be carried across a suspension. -/
def isUnsupported : Instruction → Bool
  | jumpSubroutine _ | returnSubroutine _ | monitorEnter | monitorExit => true
  | _ => false

end Instruction

namespace Method

/-- Fails if the method has an instruction that can't be carried across a suspension. -/
def checkSupported (m : Method) : Except InstrumentError Unit :=
  match m.body.instructions.zipIdx.find? fun (i, _) => i.isUnsupported with
  | some (i, position) => .error (.unsupportedConstruct m.signature i.name position)
  | none => .ok ()

end Method

namespace Body

/-- The places of continuation points with their frames, in the order of their numbers. -/
def pointPlaces (b : Body) (frames : Frames) : List (PointKind × Nat × Frame) :=
  let suspends := (b.positions Instruction.isSuspend).map fun p => (PointKind.suspend, p)
  let saves := (b.positions Instruction.isSave).map fun p => (PointKind.save, p)
  (suspends ++ saves).filterMap fun (kind, p) => frames[p]?.join.map fun f => (kind, p, f)

/-- The continuation points of a body with the given frames, and the body whose labels they use. -/
def locate (b : Body) (frames : Frames) (returns : Option ValueType) :
    List ContinuationPoint × Body :=
  let places := b.pointPlaces frames
  let (labels, b) := b.newLabels places.length
  let points := List.zipWith (fun (place, id) restoreLabel =>
    let (kind, position, frame) := place
    { id, kind, position, frame, restoreLabel, returns }) places.zipIdx labels
  (points, b)

end Body

end Resumable
