import Resumable.Capability
import Resumable.Instrumentation.SlotTable

/-!
# Code that saves and restores frames

A frame is saved in two arrays of references, one for the operand stack from its bottom up and one
for the locals by slot.  Primitives are put into boxes.  Null isn't kept where the frame tells that
there's nothing else, and slots that hold nothing are left out.
-/

namespace Resumable

namespace Snapshot

def loadReference (index : UInt16) : Instruction := .load .reference index

def storeReference (index : UInt16) : Instruction := .store .reference index

def pushInt (n : Nat) : Instruction := .const (.int (Int32.ofNat n))

/-- Makes an array of references and stores it in a local. -/
def newArray (length : Nat) (index : UInt16) : List Instruction :=
  [pushInt length, .newArray .root, storeReference index]

/-- Puts the primitive on top of the stack into a box; references stay as they are. -/
def boxTop (kind : ValueKind) : List Instruction :=
  match kind.numeric? with
  | some k => [.invoke .static k.box]
  | none => []

/-- Makes the array element on top of the stack the value that it was when it was saved. -/
def unboxTop (v : FrameValue) : List Instruction :=
  match v with
  | .reference type => [.checkCast type]
  | v =>
    match v.kind?.bind ValueKind.numeric? with
    | some k => [.checkCast (.object k.boxTypeName), .invoke .virtual k.unbox]
    | none => []

/-- Pushes the saved value at an index of an array. -/
def loadElement (array : UInt16) (index : Nat) (v : FrameValue) : List Instruction :=
  if v = .null then [.const .null]
  else [loadReference array, pushInt index, .arrayLoad .reference] ++ unboxTop v

/-- Moves the value on top of the stack to an index of the stack's array. -/
def saveTop (t : SlotTable) (index : Nat) (v : FrameValue) : List Instruction :=
  match v.kind? with
  | none => [.pop]
  | some kind =>
    boxTop kind ++ [storeReference t.scratch, loadReference t.stackArray, pushInt index,
      loadReference t.scratch, .arrayStore .reference]

/-- Moves all values of the stack, given from its top down, to its array. -/
def saveValues (t : SlotTable) : (stack : List FrameValue) → List Instruction
  | [] => []
  | v :: below => saveTop t below.length v ++ saveValues t below

/-- Pushes the saved values of the stack, given from its top down. -/
def loadStack (t : SlotTable) : (stack : List FrameValue) → List Instruction
  | [] => []
  | v :: below => loadStack t below ++ loadElement t.stackArray below.length v

/-- Moves the stack to a new array. -/
def saveStack (t : SlotTable) (stack : List FrameValue) : List Instruction :=
  newArray stack.length t.stackArray ++ saveValues t stack

/-- Copies one local to the array of the locals. -/
def saveLocal (t : SlotTable) (index : Nat) (v : FrameValue) : List Instruction :=
  match v.kind? with
  | none => []
  | some kind =>
    if v = .null then []
    else
      [loadReference t.localsArray, pushInt index, .load kind (UInt16.ofNat index)] ++
        boxTop kind ++ [.arrayStore .reference]

/-- Copies the locals to a new array. -/
def saveLocals (t : SlotTable) (locals : List FrameValue) : List Instruction :=
  newArray locals.length t.localsArray ++
    locals.zipIdx.flatMap fun (v, index) => saveLocal t index v

/-- Stores the saved value of one local. -/
def loadLocal (t : SlotTable) (index : Nat) (v : FrameValue) : List Instruction :=
  match v.kind? with
  | none => []
  | some kind => loadElement t.localsArray index v ++ [.store kind (UInt16.ofNat index)]

/-- Stores the saved values of the locals. -/
def loadLocals (t : SlotTable) (locals : List FrameValue) : List Instruction :=
  locals.zipIdx.flatMap fun (v, index) => loadLocal t index v

/-- Makes a state of the arrays and pushes it onto the capability. -/
def pushState (t : SlotTable) (id : Nat) : List Instruction :=
  [loadReference t.capability, pushInt id, loadReference t.stackArray,
    loadReference t.localsArray, .invoke .static Capability.createState,
    .invoke .virtual Capability.pushState]

/-- Pops a state from the capability into the scratch slot, and takes the arrays out of it. -/
def popState (t : SlotTable) : List Instruction :=
  [loadReference t.capability, .invoke .virtual Capability.popState, storeReference t.scratch,
    loadReference t.scratch, .invoke .virtual Capability.getStack, storeReference t.stackArray,
    loadReference t.scratch, .invoke .virtual Capability.getLocals,
    storeReference t.localsArray]

/-- Pushes the capability's mode. -/
def getMode (t : SlotTable) : List Instruction :=
  [loadReference t.capability, .invoke .virtual Capability.getMode]

/-- Sets the capability's mode. -/
def setMode (t : SlotTable) (mode : Int32) : List Instruction :=
  [loadReference t.capability, .const (.int mode), .invoke .virtual Capability.setMode]

/-- The zero of a kind. -/
def zero : ValueKind → Constant
  | .int => .int 0
  | .long => .long 0
  | .float => .float 0
  | .double => .double 0
  | .reference => .null

/-- Leaves the method with the zero of its result. -/
def leaveEarly : (returns : Option ValueType) → List Instruction
  | none => [.leave none]
  | some type => [.const (zero type.kind), .leave (some type.kind)]

/-- Throws a text. -/
def fail (message : String) : List Instruction := [.const (.string message), .throw]

end Snapshot

end Resumable
