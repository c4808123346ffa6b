import Resumable.Capability
import Resumable.Number.Notation

/-!
# Values and objects

A value is null, a primitive or a reference to an object of the world.  Objects are never given up,
so an object's address is its identity.  All that can change is what arrays hold, and the modes and
state stacks of capabilities; several objects may stand for one capability.

Whether a value can be used where a type is expected follows from its runtime type.
-/

namespace Resumable

/-- A value on the operand stack or in a local slot.  Floats and doubles are kept as the words that
hold them. -/
inductive Value
  | null
  | int (value : Int32)
  | long (value : Int64)
  | float (word : UInt32)
  | double (word : UInt64)
  | object (address : Nat)
deriving DecidableEq, Inhabited

/-- What is found at an address. -/
inductive Object
  | string (value : String)
  | array (element : ValueType) (values : Array Value)
  /-- A box made for a value. -/
  | box (content : Value)
  /-- One of the objects that stand for a capability. -/
  | capability (cell : Nat)
  /-- The saved state of a method. -/
  | state (point : Int32) (stack locals : Value)
  /-- An object of which only the type is known. -/
  | plain (typeName : String)
deriving Inhabited

/-- The mode of a capability, and the addresses of its states, the last pushed one first. -/
structure CapabilityCell where
  mode : Int32
  states : List Nat
deriving Inhabited

/-- A capability in normal mode without states. -/
def CapabilityCell.initial : CapabilityCell := ⟨Capability.normal, []⟩

/-- A picture of a value with all that was in it at some moment, down to some depth. -/
inductive Picture
  | null
  | int (value : Int32)
  | long (value : Int64)
  | float (word : UInt32)
  | double (word : UInt64)
  | string (value : String)
  | array (element : ValueType) (values : List Picture)
  | box (content : Picture)
  | capability (mode : Int32) (states : Nat)
  | state (point : Int32) (stack locals : Picture)
  | plain (typeName : String)
  /-- Something that was too deep to be shown. -/
  | cut
deriving Inhabited

/-- All objects and capabilities by address, and what the host has noted down: pictures of the
arguments of natives, the last note first. -/
structure World where
  objects : Array Object
  capabilities : Array CapabilityCell
  journal : List (List Picture)

namespace Value

/-- The kind of the value. -/
def kind : Value → ValueKind
  | int _ => .int
  | long _ => .long
  | float _ => .float
  | double _ => .double
  | null | object _ => .reference

/-- True for longs and doubles. -/
def isWide (v : Value) : Bool := v.kind.isWide

def isNull : Value → Bool
  | null => true
  | _ => false

/-- The zero of a kind. -/
def zero : ValueKind → Value
  | .int => int 0
  | .long => long 0
  | .float => float 0
  | .double => double 0
  | .reference => null

def ofBool (b : Bool) : Value := int (if b then 1 else 0)

end Value

/-- True if an object of type `actual` can be used where `expected` is expected. -/
def ValueType.accepts : (expected actual : ValueType) → Bool
  | .array expected, .array actual =>
    if expected.isReference && actual.isReference then expected.accepts actual
    else expected = actual
  | expected, actual => expected = .root || expected = actual

namespace Object

/-- The type of the object. -/
def type : Object → ValueType
  | string _ => .object stringTypeName
  | array element _ => .array element
  | box content =>
    match content.kind.numeric? with
    | some k => .object k.boxTypeName
    | none => .root
  | capability _ => Capability.type
  | state .. => Capability.stateType
  | plain typeName => .object typeName

end Object

namespace World

def empty : World := ⟨#[], #[], []⟩

/-- Adds an object. -/
def allocate (w : World) (o : Object) : Value × World :=
  (.object w.objects.size, { w with objects := w.objects.push o })

/-- Adds a capability in normal mode without states. -/
def newCapability (w : World) : Nat × World :=
  (w.capabilities.size, { w with capabilities := w.capabilities.push .initial })

/-- The object at an address. -/
def object? (w : World) (address : Nat) : Option Object := w.objects[address]?

/-- The object that a value refers to. -/
def referent? (w : World) : Value → Option Object
  | .object address => w.object? address
  | _ => none

/-- The capability with the given number. -/
def cell (w : World) (n : Nat) : CapabilityCell := w.capabilities.getD n .initial

/-- Changes a capability. -/
def modifyCell (w : World) (n : Nat) (f : CapabilityCell → CapabilityCell) : World :=
  { w with capabilities := w.capabilities.modify n f }

/-- Puts a value into an array. -/
def setElement (w : World) (address index : Nat) (v : Value) : World :=
  let put : Object → Object
    | .array element values => .array element (values.setIfInBounds index v)
    | o => o
  { w with objects := w.objects.modify address put }

/-- The type that a value has; null is taken to be of the root type. -/
def typeOf (w : World) (v : Value) : ValueType :=
  match v with
  | .null => .root
  | .int _ => .int
  | .long _ => .long
  | .float _ => .float
  | .double _ => .double
  | .object address => ((w.object? address).map Object.type).getD .root

/-- True if the value can be used where the type is expected. -/
def isInstance (w : World) (v : Value) (expected : ValueType) : Bool :=
  match v with
  | .null => expected.isReference
  | .object _ => expected.isReference && expected.accepts (w.typeOf v)
  | v => v.kind = expected.kind

/-- The text of a primitive. -/
def primitiveText : Value → String
  | .int n => toString n.toInt
  | .long n => toString n.toInt
  | .float word => NumberStyle.plain.text .single word.toNat
  | .double word => NumberStyle.plain.text .double word.toNat
  | _ => "null"

/-- The text of the object at an address.  A box shows what is in it, which is older than the box
and so has a smaller address. -/
def objectText (w : World) (address : Nat) : String :=
  match w.object? address with
  | some (.string s) => s
  | some (.array element values) => s!"{element.text}[{values.size}]"
  | some (.box (.object content)) => if content < address then w.objectText content else "null"
  | some (.box content) => primitiveText content
  | some (.capability n) => s!"continuation (mode {(w.cell n).mode.toInt})"
  | some (.state point _ _) => s!"method state (point {point.toInt})"
  | some (.plain typeName) => s!"{typeName} instance"
  | none => "null"
termination_by address

/-- The text of a value. -/
def text (w : World) : Value → String
  | .object address => w.objectText address
  | v => primitiveText v

/-- The picture of a value as it is now.  What is `depth` levels down in it is cut off. -/
def picture (w : World) : (depth : Nat) → Value → Picture
  | 0, _ => .cut
  | _ + 1, .null => .null
  | _ + 1, .int n => .int n
  | _ + 1, .long n => .long n
  | _ + 1, .float word => .float word
  | _ + 1, .double word => .double word
  | depth + 1, .object address =>
    match w.object? address with
    | some (.string s) => .string s
    | some (.array element values) => .array element (values.toList.map (w.picture depth))
    | some (.box content) => .box (w.picture depth content)
    | some (.capability n) => .capability (w.cell n).mode (w.cell n).states.length
    | some (.state point stack locals) =>
      .state point (w.picture depth stack) (w.picture depth locals)
    | some (.plain typeName) => .plain typeName
    | none => .null

/-- Notes down pictures of the arguments of a native. -/
def note (w : World) (depth : Nat) (args : List Value) : World :=
  { w with journal := args.map (w.picture depth) :: w.journal }

/-- True if two objects are equal: strings and boxes by what they hold, objects that stand for a
capability by the capability, all others by their identity. -/
def equalObjects (w : World) (a b : Nat) : Bool :=
  match w.object? a, w.object? b with
  | some (.string s), some (.string t) => s = t
  | some (.box (.object c)), some (.box (.object d)) => if c < a then w.equalObjects c d else a = b
  | some (.box c), some (.box d) => c = d
  | some (.capability m), some (.capability n) => m = n
  | _, _ => a = b
termination_by a

/-- True if two values are equal, floats and doubles by their words. -/
def equal (w : World) : Value → Value → Bool
  | .object a, .object b => w.equalObjects a b
  | a, b => a = b

end World

end Resumable
