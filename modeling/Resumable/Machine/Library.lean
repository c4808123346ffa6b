import Resumable.Machine.Error

/-!
# Natives and the library

A native is a method that isn't made of instructions.  Every machine has the natives of the library:
those of capabilities, of method states and of boxes.  They check their arguments themselves, and
one that fails leaves the world as it was.
-/

namespace Resumable

/-- A method that the host provides.  A virtual one gets its receiver as the first argument.  What
it does to the world stays even if it fails. -/
abbrev Native := World → List Value → Except MachineError (Option Value) × World

namespace CapabilityCell

/-- True if states are being saved. -/
def isSaving (c : CapabilityCell) : Bool := c.mode = Capability.saving

def push (c : CapabilityCell) (state : Nat) : CapabilityCell :=
  { c with states := state :: c.states }

/-- The last state pushed, and the cell without it.  With the last state gone the mode is normal, so
that the innermost method goes on from where it was. -/
def pop? (c : CapabilityCell) : Option (Nat × CapabilityCell) :=
  match c.states with
  | [] => none
  | state :: rest =>
    some (state, { mode := if rest.isEmpty then Capability.normal else c.mode, states := rest })

end CapabilityCell

namespace Library

/-- What an operation of the library gives: an error, or its result and the world after it. -/
abbrev Outcome := Except MachineError (Option Value × World)

/-- The native that an operation makes. -/
def native (operation : World → List Value → Outcome) : Native := fun w args =>
  match operation w args with
  | .ok (result, w) => (.ok result, w)
  | .error e => (.error e, w)

/-- The object that a native is called on. -/
def receiver (w : World) (args : List Value) : Except MachineError Object :=
  match args.head?.bind w.referent? with
  | some o => .ok o
  | none => .error .nullReference

/-- The number of the capability that a native is called on. -/
def capability (w : World) (args : List Value) : Except MachineError Nat := do
  match ← receiver w args with
  | .capability cell => return cell
  | o => throw (.classCast Capability.type o.type)

/-- The parts of the method state that a native is called on. -/
def methodState (w : World) (args : List Value) :
    Except MachineError (Int32 × Value × Value) := do
  match ← receiver w args with
  | .state point stack locals => return (point, stack, locals)
  | o => throw (.classCast Capability.stateType o.type)

/-- The int among the arguments. -/
def intArgument (args : List Value) (index : Nat) : Except MachineError Int32 :=
  match args[index]? with
  | some (.int n) => .ok n
  | _ => .error (.badArguments (.expectedInt index))

/-- The address of the method state among the arguments. -/
def stateArgument (w : World) (args : List Value) (index : Nat) : Except MachineError Nat :=
  match args[index]? with
  | some (.object address) =>
    match w.object? address with
    | some (.state ..) => .ok address
    | _ => .error .nullReference
  | _ => .error .nullReference

/-- Suspending is left to instrumented methods. -/
def suspend (_ : World) (_ : List Value) : Outcome := .error .uninstrumentedSuspend

def getMode (w : World) (args : List Value) : Outcome := do
  let cell ← capability w args
  return (some (.int (w.cell cell).mode), w)

def setMode (w : World) (args : List Value) : Outcome := do
  let cell ← capability w args
  let mode ← intArgument args 1
  return (none, w.modifyCell cell fun c => { c with mode })

def pushState (w : World) (args : List Value) : Outcome := do
  let state ← stateArgument w args 1
  let cell ← capability w args
  return (none, w.modifyCell cell fun c => c.push state)

def popState (w : World) (args : List Value) : Outcome := do
  let cell ← capability w args
  match (w.cell cell).pop? with
  | some (state, c) => return (some (.object state), w.modifyCell cell fun _ => c)
  | none => throw .emptyStateStack

def createState (w : World) (args : List Value) : Outcome :=
  match args with
  | [.int point, stack, locals] =>
    let (state, w) := w.allocate (.state point stack locals)
    .ok (some state, w)
  | [_, _, _] => .error (.badArguments .expectedPoint)
  | _ => .error (.badArguments .expectedThree)

def getPoint (w : World) (args : List Value) : Outcome := do
  let (point, _, _) ← methodState w args
  return (some (.int point), w)

def getStack (w : World) (args : List Value) : Outcome := do
  let (_, stack, _) ← methodState w args
  return (some stack, w)

def getLocals (w : World) (args : List Value) : Outcome := do
  let (_, _, locals) ← methodState w args
  return (some locals, w)

def box (w : World) (args : List Value) : Outcome :=
  match args with
  | content :: _ =>
    let (boxed, w) := w.allocate (.box content)
    .ok (some boxed, w)
  | [] => .error (.badArguments .nothingToBox)

def unbox (w : World) (args : List Value) : Outcome := do
  match ← receiver w args with
  | .box content => return (some content, w)
  | o => throw (.badArguments (.expectedBox o.type))

/-- The methods of the library with what they do. -/
def operations : List (MethodRef × (World → List Value → Outcome)) :=
  [(Capability.suspend, suspend), (Capability.getMode, getMode), (Capability.setMode, setMode),
    (Capability.pushState, pushState), (Capability.popState, popState),
    (Capability.createState, createState), (Capability.getPoint, getPoint),
    (Capability.getStack, getStack), (Capability.getLocals, getLocals)] ++
    [NumericKind.int, .long, .float, .double].flatMap fun k => [(k.box, box), (k.unbox, unbox)]

/-- The natives of the library. -/
def natives : List (MethodRef × Native) :=
  operations.map fun (method, operation) => (method, native operation)

end Library

end Resumable
