import Resumable.Descriptor.ValueType

/-!
# Frame values

A frame value says what is known of a slot or of an operand: nothing, a primitive of some kind,
null, or a reference to a type.  Frame values are ordered by assignability, with the unknown value
on top; merging two of them gives the least value above both.
-/

namespace Resumable

/-- What is known of a local slot or of a value on the operand stack. -/
inductive FrameValue
  | top
  | int
  | float
  | long
  | double
  | null
  | reference (type : ValueType)
deriving DecidableEq

/-- How much room a value takes, and whether it holds anything at all. -/
inductive SlotCategory
  | primitive32
  | primitive64
  | reference
  | uninitialized
deriving DecidableEq

/-- True if a reference to `source` can be used as a reference to `target`.  Arrays of references
follow their elements; other arrays fit only themselves and the root type. -/
def ValueType.isAssignableFrom : (target source : ValueType) → Bool
  | .object target, .object source => target = rootTypeName || target = source
  | .object target, _ => target = rootTypeName
  | .array target, .array source =>
    if target.isReference && source.isReference then target.isAssignableFrom source
    else target = source
  | _, _ => false

/-- The least type to which references of both types can be assigned. -/
def ValueType.merge : ValueType → ValueType → ValueType
  | .array a, .array b =>
    if (ValueType.array a).isAssignableFrom (.array b) then .array a
    else if (ValueType.array b).isAssignableFrom (.array a) then .array b
    else if a.isReference && b.isReference then .array (a.merge b)
    else .root
  | a, b =>
    if a.isAssignableFrom b then a
    else if b.isAssignableFrom a then b
    else .root

namespace FrameValue

/-- The frame value of a value of the given type. -/
def ofType : ValueType → FrameValue
  | .boolean | .int => int
  | .long => long
  | .float => float
  | .double => double
  | t => reference t

/-- The frame value of a value of the given kind, as much as the kind tells. -/
def ofKind : ValueKind → FrameValue
  | .int => int
  | .long => long
  | .float => float
  | .double => double
  | .reference => reference .root

/-- The kind of the loads and stores that work on the value. -/
def kind? : FrameValue → Option ValueKind
  | top => none
  | int => some .int
  | float => some .float
  | long => some .long
  | double => some .double
  | null | reference _ => some .reference

def category : FrameValue → SlotCategory
  | top => .uninitialized
  | int | float => .primitive32
  | long | double => .primitive64
  | null | reference _ => .reference

/-- True for null and references. -/
def isReference : FrameValue → Bool
  | null | reference _ => true
  | _ => false

/-- True for the values that take two slots. -/
def isWide : FrameValue → Bool
  | long | double => true
  | _ => false

/-- The number of slots that the value takes. -/
def slots (v : FrameValue) : Nat := if v.isWide then 2 else 1

/-- True if a value known as `source` can be used where `target` is expected. -/
def isAssignableFrom : (target source : FrameValue) → Bool
  | top, _ => true
  | reference _, null => true
  | reference target, reference source => target.isAssignableFrom source
  | target, source => target = source

/-- What is known of a value that is known as one of the two. -/
def merge (a b : FrameValue) : FrameValue :=
  if a = b then a
  else
    match a, b with
    | null, reference _ => b
    | reference _, null => a
    | reference s, reference t => reference (s.merge t)
    | _, _ => top

def text : FrameValue → String
  | top => "."
  | int => "I"
  | float => "F"
  | long => "J"
  | double => "D"
  | null => "null"
  | reference t => t.text

end FrameValue

end Resumable
