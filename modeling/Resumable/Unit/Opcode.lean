import Resumable.Instruction.Basic

/-!
# Opcodes

Each instruction starts with a byte that says which instruction it is, and so what operands follow.
The bytes in use are the first forty-four, and enumerations among the operands are numbered from
zero in the same way.
-/

namespace Resumable

/-- What the first byte of an encoded instruction says. -/
inductive Opcode
  | label
  | nop
  | constNull
  | constInt
  | constLong
  | constFloat
  | constDouble
  | constString
  | load
  | store
  | increment
  | pop
  | pop2
  | dup
  | dupX1
  | dupX2
  | dup2
  | swap
  | binary
  | negate
  | convert
  | compare
  | ifZero
  | ifCompare
  | ifSame
  | ifNull
  | goto
  | jumpSubroutine
  | returnSubroutine
  | tableSwitch
  | lookupSwitch
  | invokeStatic
  | invokeVirtual
  | newArray
  | arrayLength
  | arrayLoad
  | arrayStore
  | checkCast
  | instanceOf
  | throw
  | monitorEnter
  | monitorExit
  | leave
  | leaveVoid
deriving DecidableEq

namespace Opcode

/-- All opcodes, in the order of their bytes. -/
def all : List Opcode :=
  [label, nop, constNull, constInt, constLong, constFloat, constDouble, constString, load, store,
   increment, pop, pop2, dup, dupX1, dupX2, dup2, swap, binary, negate, convert, compare, ifZero,
   ifCompare, ifSame, ifNull, goto, jumpSubroutine, returnSubroutine, tableSwitch, lookupSwitch,
   invokeStatic, invokeVirtual, newArray, arrayLength, arrayLoad, arrayStore, checkCast,
   instanceOf, throw, monitorEnter, monitorExit, leave, leaveVoid]

/-- The opcode's byte. -/
def byte (o : Opcode) : UInt8 := UInt8.ofNat (all.idxOf o)

/-- The opcode with the given byte. -/
def ofByte? (b : UInt8) : Option Opcode := all[b.toNat]?

/-- The opcode's name. -/
def name : Opcode → String
  | label => "Label"
  | nop => "Nop"
  | constNull => "ConstNull"
  | constInt => "ConstInt"
  | constLong => "ConstLong"
  | constFloat => "ConstFloat"
  | constDouble => "ConstDouble"
  | constString => "ConstString"
  | load => "Load"
  | store => "Store"
  | increment => "Increment"
  | pop => "Pop"
  | pop2 => "Pop2"
  | dup => "Dup"
  | dupX1 => "DupX1"
  | dupX2 => "DupX2"
  | dup2 => "Dup2"
  | swap => "Swap"
  | binary => "Binary"
  | negate => "Negate"
  | convert => "Convert"
  | compare => "Compare"
  | ifZero => "If"
  | ifCompare => "IfCompare"
  | ifSame => "IfReferenceEqual"
  | ifNull => "IfNull"
  | goto => "Goto"
  | jumpSubroutine => "Jsr"
  | returnSubroutine => "Ret"
  | tableSwitch => "TableSwitch"
  | lookupSwitch => "LookupSwitch"
  | invokeStatic => "InvokeStatic"
  | invokeVirtual => "InvokeVirtual"
  | newArray => "NewArray"
  | arrayLength => "ArrayLength"
  | arrayLoad => "ArrayLoad"
  | arrayStore => "ArrayStore"
  | checkCast => "CheckCast"
  | instanceOf => "InstanceOf"
  | throw => "Throw"
  | monitorEnter => "MonitorEnter"
  | monitorExit => "MonitorExit"
  | leave => "Return"
  | leaveVoid => "ReturnVoid"

end Opcode

/-- The opcode that an instruction starts with. -/
def Instruction.opcode : Instruction → Opcode
  | label _ => .label
  | nop => .nop
  | const .null => .constNull
  | const (.int _) => .constInt
  | const (.long _) => .constLong
  | const (.float _) => .constFloat
  | const (.double _) => .constDouble
  | const (.string _) => .constString
  | load .. => .load
  | store .. => .store
  | increment .. => .increment
  | pop => .pop
  | pop2 => .pop2
  | dup => .dup
  | dupX1 => .dupX1
  | dupX2 => .dupX2
  | dup2 => .dup2
  | swap => .swap
  | binary .. => .binary
  | negate _ => .negate
  | convert .. => .convert
  | compare .. => .compare
  | ifZero .. => .ifZero
  | ifCompare .. => .ifCompare
  | ifSame .. => .ifSame
  | ifNull .. => .ifNull
  | goto _ => .goto
  | jumpSubroutine _ => .jumpSubroutine
  | returnSubroutine _ => .returnSubroutine
  | tableSwitch .. => .tableSwitch
  | lookupSwitch .. => .lookupSwitch
  | invoke .static _ => .invokeStatic
  | invoke .virtual _ => .invokeVirtual
  | newArray _ => .newArray
  | arrayLength => .arrayLength
  | arrayLoad _ => .arrayLoad
  | arrayStore _ => .arrayStore
  | checkCast _ => .checkCast
  | instanceOf _ => .instanceOf
  | throw => .throw
  | monitorEnter => .monitorEnter
  | monitorExit => .monitorExit
  | leave (some _) => .leave
  | leave none => .leaveVoid

namespace ValueKind

/-- The kinds in the order of their bytes. -/
def all : List ValueKind := [int, long, float, double, reference]

def byte (k : ValueKind) : UInt8 := UInt8.ofNat (all.idxOf k)

def ofByte? (b : UInt8) : Option ValueKind := all[b.toNat]?

end ValueKind

namespace NumericKind

/-- The kinds in the order of their bytes. -/
def all : List NumericKind := [int, long, float, double]

def byte (k : NumericKind) : UInt8 := UInt8.ofNat (all.idxOf k)

def ofByte? (b : UInt8) : Option NumericKind := all[b.toNat]?

end NumericKind

namespace Condition

/-- The conditions in the order of their bytes. -/
def all : List Condition := [equal, notEqual, less, greaterOrEqual, greater, lessOrEqual]

def byte (c : Condition) : UInt8 := UInt8.ofNat (all.idxOf c)

def ofByte? (b : UInt8) : Option Condition := all[b.toNat]?

end Condition

namespace BinaryOp

/-- The operations in the order of their bytes. -/
def all : List BinaryOp :=
  [add, subtract, multiply, divide, remainder, shiftLeft, shiftRight, shiftRightUnsigned, and, or,
    xor]

def byte (op : BinaryOp) : UInt8 := UInt8.ofNat (all.idxOf op)

def ofByte? (b : UInt8) : Option BinaryOp := all[b.toNat]?

end BinaryOp

end Resumable
