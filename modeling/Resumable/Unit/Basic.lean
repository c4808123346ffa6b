import Resumable.Body.Basic
import Resumable.Frame.Basic

/-!
# Units

A unit is a named collection of methods.  A method has flags, the sizes of its operand stack and of
its locals in slots, a body, and a stack map: the frames recorded at labels of the body.
-/

namespace Resumable

/-- What a method is and how it may be used, as a set of bits. -/
structure AccessFlags where
  bits : UInt16
deriving DecidableEq

namespace AccessFlags

/-- Other units may call the method. -/
def visible : AccessFlags := ⟨0x0001⟩

/-- The method has no receiver. -/
def static : AccessFlags := ⟨0x0008⟩

/-- The host implements the method. -/
def native : AccessFlags := ⟨0x0100⟩

/-- The method has no body. -/
def abstract : AccessFlags := ⟨0x0400⟩

/-- The method can already be suspended and resumed. -/
def instrumented : AccessFlags := ⟨0x4000⟩

/-- True if all of the other flags are set. -/
def contains (f g : AccessFlags) : Bool := f.bits &&& g.bits = g.bits

/-- The flags of both. -/
def union (f g : AccessFlags) : AccessFlags := ⟨f.bits ||| g.bits⟩

/-- The flags without those of the other. -/
def without (f g : AccessFlags) : AccessFlags := ⟨f.bits &&& ~~~ g.bits⟩

def isStatic (f : AccessFlags) : Bool := f.contains static

/-- True for native and abstract methods. -/
def hasNoBody (f : AccessFlags) : Bool := f.contains native || f.contains abstract

def isInstrumented (f : AccessFlags) : Bool := f.contains instrumented

end AccessFlags

/-- Flags of a whole unit, as a set of bits. -/
structure UnitFlags where
  bits : UInt8
deriving DecidableEq

namespace UnitFlags

def none : UnitFlags := ⟨0⟩

/-- The unit's methods that can be suspended have been instrumented. -/
def instrumented : UnitFlags := ⟨0x01⟩

/-- True if all of the other flags are set. -/
def contains (f g : UnitFlags) : Bool := f.bits &&& g.bits = g.bits

/-- The flags of both. -/
def union (f g : UnitFlags) : UnitFlags := ⟨f.bits ||| g.bits⟩

def isInstrumented (f : UnitFlags) : Bool := f.contains instrumented

end UnitFlags

/-- The frame recorded at a label. -/
structure StackMapEntry where
  label : Label
  frame : Frame
deriving DecidableEq

/-- A method of a unit. -/
structure Method where
  name : String
  type : MethodType
  access : AccessFlags
  maxStack : UInt16
  maxLocals : UInt16
  body : Body
  stackMap : List StackMapEntry
deriving DecidableEq

namespace Method

/-- The method's name followed by its descriptor. -/
def signature (m : Method) : String := m.name ++ m.type.text

def isStatic (m : Method) : Bool := m.access.isStatic

def hasBody (m : Method) : Bool := !m.access.hasNoBody

end Method

/-- A named collection of methods. -/
structure CompiledUnit where
  name : String
  flags : UnitFlags
  methods : List Method
deriving DecidableEq

namespace CompiledUnit

/-- The first method with the given name and type. -/
def method? (u : CompiledUnit) (name : String) (type : MethodType) : Option Method :=
  u.methods.find? fun m => m.name = name && m.type = type

end CompiledUnit

end Resumable
