import Resumable.Descriptor.MethodType
import Resumable.Instruction.Basic

/-!
# The capability to suspend

A method that may suspend takes the continuation capability as its first parameter.  Instrumented
methods use the capability, the states of suspended methods and the boxes of primitives through the
methods named here.
-/

namespace Resumable

namespace Capability

/-- The name of the capability's type. -/
def typeName : String := "coil/Continuation"

/-- The name of the type of saved method states. -/
def stateTypeName : String := "coil/MethodState"

def type : ValueType := .object typeName

def stateType : ValueType := .object stateTypeName

/-- The type of the arrays that hold a saved operand stack or saved locals. -/
def snapshotType : ValueType := .array .root

/-- The mode in which methods run. -/
def normal : Int32 := 0

/-- The mode in which methods save their states and return. -/
def saving : Int32 := 1

/-- The mode in which methods restore their states and go on from where they were. -/
def loading : Int32 := 2

/-- The word for a mode. -/
def modeName (mode : Int32) : String :=
  if mode = normal then "normal"
  else if mode = saving then "saving"
  else if mode = loading then "loading"
  else "unknown"

def suspend : MethodRef := ⟨typeName, "suspend", ⟨[], none⟩⟩

def getMode : MethodRef := ⟨typeName, "getMode", ⟨[], some .int⟩⟩

def setMode : MethodRef := ⟨typeName, "setMode", ⟨[.int], none⟩⟩

def pushState : MethodRef := ⟨typeName, "pushMethodState", ⟨[stateType], none⟩⟩

def popState : MethodRef := ⟨typeName, "popMethodState", ⟨[], some stateType⟩⟩

/-- Makes a state from a point's number, the saved operand stack and the saved locals. -/
def createState : MethodRef :=
  ⟨stateTypeName, "create", ⟨[.int, snapshotType, snapshotType], some stateType⟩⟩

def getPoint : MethodRef := ⟨stateTypeName, "getContinuationPoint", ⟨[], some .int⟩⟩

def getStack : MethodRef := ⟨stateTypeName, "getStack", ⟨[], some snapshotType⟩⟩

def getLocals : MethodRef := ⟨stateTypeName, "getLocals", ⟨[], some snapshotType⟩⟩

end Capability

/-- True if a method of this type may suspend. -/
def MethodType.isEligible (t : MethodType) : Bool := t.params.head? = some Capability.type

namespace NumericKind

/-- The primitive type of the kind. -/
def type : NumericKind → ValueType
  | int => .int
  | long => .long
  | float => .float
  | double => .double

/-- The name of the type of boxes for primitives of the kind. -/
def boxTypeName : NumericKind → String
  | int => "lang/Integer"
  | long => "lang/Long"
  | float => "lang/Float"
  | double => "lang/Double"

/-- The static method that puts a primitive into a box. -/
def box (k : NumericKind) : MethodRef :=
  ⟨k.boxTypeName, "valueOf", ⟨[k.type], some (.object k.boxTypeName)⟩⟩

/-- The virtual method that takes the primitive out of its box. -/
def unbox (k : NumericKind) : MethodRef :=
  let name := match k with
    | int => "intValue"
    | long => "longValue"
    | float => "floatValue"
    | double => "doubleValue"
  ⟨k.boxTypeName, name, ⟨[], some k.type⟩⟩

end NumericKind

/-- The kind of arithmetic on values of the kind; there's none on references. -/
def ValueKind.numeric? : ValueKind → Option NumericKind
  | .int => some .int
  | .long => some .long
  | .float => some .float
  | .double => some .double
  | .reference => none

end Resumable
