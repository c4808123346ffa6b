import Resumable.Descriptor.MethodType

/-!
# Instructions

The instructions of a method body, which work on an operand stack and on local slots.  Labels are
instructions that do nothing but mark a place; jumps name labels.  `Instruction.targets` and
`Instruction.fallsThrough` say all there is to know about where an instruction may continue.
-/

namespace Resumable

/-- A mark in a method body that jumps refer to. -/
structure Label where
  number : UInt32
deriving DecidableEq

def Label.text (l : Label) : String := s!"L{l.number.toNat}"

/-- A constant.  Floats and doubles are kept as the words that hold them. -/
inductive Constant
  | null
  | int (value : Int32)
  | long (value : Int64)
  | float (word : UInt32)
  | double (word : UInt64)
  | string (value : String)
deriving DecidableEq

/-- The comparisons of conditional jumps. -/
inductive Condition
  | equal
  | notEqual
  | less
  | greaterOrEqual
  | greater
  | lessOrEqual
deriving DecidableEq

namespace Condition

/-- Compares two ints. -/
def test (c : Condition) (a b : Int32) : Bool :=
  match c with
  | equal => a = b
  | notEqual => a ≠ b
  | less => a < b
  | greaterOrEqual => b ≤ a
  | greater => b < a
  | lessOrEqual => a ≤ b

def text : Condition → String
  | equal => "=="
  | notEqual => "!="
  | less => "<"
  | greaterOrEqual => ">="
  | greater => ">"
  | lessOrEqual => "<="

end Condition

/-- The operations on two numbers. -/
inductive BinaryOp
  | add
  | subtract
  | multiply
  | divide
  | remainder
  | shiftLeft
  | shiftRight
  | shiftRightUnsigned
  | and
  | or
  | xor
deriving DecidableEq

namespace BinaryOp

/-- True for the shifts, which take an int as their distance. -/
def isShift : BinaryOp → Bool
  | shiftLeft | shiftRight | shiftRightUnsigned => true
  | _ => false

/-- True for the operations that only ints and longs have. -/
def isIntegralOnly : BinaryOp → Bool
  | and | or | xor => true
  | op => op.isShift

def text : BinaryOp → String
  | add => "add"
  | subtract => "sub"
  | multiply => "mul"
  | divide => "div"
  | remainder => "rem"
  | shiftLeft => "shl"
  | shiftRight => "shr"
  | shiftRightUnsigned => "ushr"
  | and => "and"
  | or => "or"
  | xor => "xor"

end BinaryOp

/-- How an invocation passes its arguments. -/
inductive InvokeKind
  /-- Only the parameters are popped. -/
  | static
  /-- A receiver of the owner's type is popped after the parameters. -/
  | virtual
deriving DecidableEq

/-- A method as invocations refer to it. -/
structure MethodRef where
  owner : String
  name : String
  type : MethodType
deriving DecidableEq

def MethodRef.text (m : MethodRef) : String := m.owner ++ "." ++ m.name ++ m.type.text

/-- One operation of a method body. -/
inductive Instruction
  /-- Marks a place. -/
  | label (label : Label)
  | nop
  /-- Pushes a constant. -/
  | const (value : Constant)
  /-- Pushes a local. -/
  | load (kind : ValueKind) (index : UInt16)
  /-- Pops a local. -/
  | store (kind : ValueKind) (index : UInt16)
  /-- Adds to an int local. -/
  | increment (index : UInt16) (delta : Int16)
  /-- Drops one slot. -/
  | pop
  /-- Drops two slots. -/
  | pop2
  /-- Copies the top slot. -/
  | dup
  /-- Copies the top slot below the slot under it. -/
  | dupX1
  /-- Copies the top slot below the two slots under it. -/
  | dupX2
  /-- Copies the top two slots. -/
  | dup2
  /-- Exchanges the top two slots. -/
  | swap
  | binary (op : BinaryOp) (kind : NumericKind)
  | negate (kind : NumericKind)
  | convert (source target : NumericKind)
  /-- Pushes -1, 0 or 1.  If one of the operands is a NaN the flag decides between -1 and 1. -/
  | compare (kind : NumericKind) (nanIsGreater : Bool)
  /-- Jumps if an int compares so to zero. -/
  | ifZero (condition : Condition) (target : Label)
  /-- Jumps if two ints compare so. -/
  | ifCompare (condition : Condition) (target : Label)
  /-- Jumps if two references are the same, or if they aren't. -/
  | ifSame (same : Bool) (target : Label)
  /-- Jumps if a reference is null, or if it isn't. -/
  | ifNull (null : Bool) (target : Label)
  | goto (target : Label)
  /-- Jumps to a subroutine. -/
  | jumpSubroutine (target : Label)
  /-- Comes back from a subroutine. -/
  | returnSubroutine (index : UInt16)
  /-- Jumps by an int's distance from `low`. -/
  | tableSwitch (low : Int32) (otherwise : Label) (targets : List Label)
  /-- Jumps by an int's first occurrence among the cases. -/
  | lookupSwitch (otherwise : Label) (cases : List (Int32 × Label))
  | invoke (kind : InvokeKind) (method : MethodRef)
  | newArray (element : ValueType)
  | arrayLength
  | arrayLoad (kind : ValueKind)
  | arrayStore (kind : ValueKind)
  | checkCast (type : ValueType)
  | instanceOf (type : ValueType)
  | throw
  | monitorEnter
  | monitorExit
  /-- Leaves the method, with a value of the given kind if there's one. -/
  | leave (kind : Option ValueKind)
deriving DecidableEq

namespace Instruction

/-- The method that the instruction invokes. -/
def invoked? : Instruction → Option (InvokeKind × MethodRef)
  | invoke kind method => some (kind, method)
  | _ => none

/-- True if the instruction invokes the given method in the given way. -/
def invokes (i : Instruction) (kind : InvokeKind) (method : MethodRef) : Bool :=
  i.invoked? = some (kind, method)

/-- The labels that the instruction may jump to. -/
def targets : Instruction → List Label
  | ifZero _ target | ifCompare _ target | ifSame _ target | ifNull _ target | goto target
  | jumpSubroutine target => [target]
  | tableSwitch _ otherwise targets => otherwise :: targets
  | lookupSwitch otherwise cases => otherwise :: cases.map (·.2)
  | _ => []

/-- The label that the instruction places. -/
def placed? : Instruction → Option Label
  | label l => some l
  | _ => none

/-- False if execution can't go on to the next instruction. -/
def fallsThrough : Instruction → Bool
  | goto _ | returnSubroutine _ | tableSwitch .. | lookupSwitch .. | throw | leave _ => false
  | _ => true

/-- The instruction's name in listings and in messages. -/
def name : Instruction → String
  | label _ => "Label"
  | nop => "Nop"
  | const _ => "Const"
  | load .. => "Load"
  | store .. => "Store"
  | increment .. => "Increment"
  | pop => "Pop"
  | pop2 => "Pop2"
  | dup => "Dup"
  | dupX1 => "DupX1"
  | dupX2 => "DupX2"
  | dup2 => "Dup2"
  | swap => "Swap"
  | binary .. => "Binary"
  | negate _ => "Negate"
  | convert .. => "Convert"
  | compare .. => "Compare"
  | ifZero .. => "If"
  | ifCompare .. => "IfCompare"
  | ifSame .. => "IfReferenceEqual"
  | ifNull .. => "IfNull"
  | goto _ => "Goto"
  | jumpSubroutine _ => "Jsr"
  | returnSubroutine _ => "Ret"
  | tableSwitch .. => "TableSwitch"
  | lookupSwitch .. => "LookupSwitch"
  | invoke .. => "Invoke"
  | newArray _ => "NewArray"
  | arrayLength => "ArrayLength"
  | arrayLoad _ => "ArrayLoad"
  | arrayStore _ => "ArrayStore"
  | checkCast _ => "CheckCast"
  | instanceOf _ => "InstanceOf"
  | throw => "Throw"
  | monitorEnter => "MonitorEnter"
  | monitorExit => "MonitorExit"
  | leave _ => "Return"

end Instruction

end Resumable
