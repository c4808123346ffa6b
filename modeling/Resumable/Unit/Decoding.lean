import Resumable.Text.Digits
import Resumable.Unit.Encoding

/-!
# Reading units from bytes

Reading goes through the bytes once and stops at the first thing that can't be part of a unit, which
it reports with the position where it was found.  Labels have to be placed once, jumps have to have
a place to go to, and the entries of a stack map have to be for different labels of the body.
Whether the body makes sense is a matter of analysis and isn't looked at.
-/

namespace Resumable

/-- The ways in which bytes aren't a unit. -/
inductive DecodeError
  | invalidMagic
  | unsupportedVersion (version : UInt8)
  | unexpectedEnd (position : Nat)
  | unknownOpcode (byte : UInt8) (position : Nat)
  | invalidOperand (operand : String) (value : UInt8) (position : Nat)
  | valueTooLarge (position : Nat)
  | invalidUtf8 (position : Nat)
  | invalidDescriptor (position : Nat) (cause : DescriptorError)
  | labels (method : String) (cause : LabelError)
  | unknownStackMapLabel (method : String) (label : Label)
  | trailingBytes (position : Nat)
deriving DecidableEq

def DecodeError.message : DecodeError → String
  | invalidMagic => "missing 'COIL' header"
  | unsupportedVersion version => s!"unsupported format version {version.toNat}"
  | unexpectedEnd position => s!"unexpected end of input at byte {position}"
  | unknownOpcode byte position =>
    "unknown op 0x" ++ Text.hexPadded 2 byte.toNat ++ s!" at byte {position}"
  | invalidOperand operand value position =>
    s!"invalid {operand} operand {value.toNat} at byte {position}"
  | valueTooLarge position => s!"value at byte {position} is too large"
  | invalidUtf8 position => s!"invalid UTF-8 in string at byte {position}"
  | invalidDescriptor position cause =>
    s!"invalid descriptor at byte {position}: {cause.message}"
  | labels method cause => s!"in method '{method}': {cause.message}"
  | unknownStackMapLabel method label =>
    s!"in method '{method}': stack map entry for {label.text} which isn't placed"
  | trailingBytes position => s!"unexpected trailing bytes at byte {position}"

/-- The bytes that haven't been read yet, and how many have been. -/
structure ByteCursor where
  position : Nat
  rest : Bytes

/-- A reader of something at the front of the bytes. -/
abbrev Decoder := StateT ByteCursor (Except DecodeError)

namespace Decoder

/-- The number of bytes read so far. -/
def position : Decoder Nat := return (← get).position

/-- Fails because the bytes have come to their end. -/
def failAtEnd {α : Type} : Decoder α := do
  let cursor ← get
  throw (.unexpectedEnd (cursor.position + cursor.rest.length))

/-- The first `n` bytes and the rest, if there are as many. -/
def split? : (n : Nat) → Bytes → Option (Bytes × Bytes)
  | 0, rest => some ([], rest)
  | _ + 1, [] => none
  | n + 1, b :: rest => (split? n rest).map fun (front, rest) => (b :: front, rest)

/-- Reads as many bytes as asked for. -/
def bytes (n : Nat) : Decoder Bytes := do
  let cursor ← get
  match split? n cursor.rest with
  | some (front, rest) =>
    set (ByteCursor.mk (cursor.position + n) rest)
    return front
  | none => failAtEnd

def byte : Decoder UInt8 := do
  let cursor ← get
  match cursor.rest with
  | b :: rest =>
    set (ByteCursor.mk (cursor.position + 1) rest)
    return b
  | [] => failAtEnd

/-- The number whose bytes are given, the lowest one first. -/
def fromLittleEndian : Bytes → Nat
  | [] => 0
  | b :: rest => b.toNat + 256 * fromLittleEndian rest

/-- Reads a number of fixed width. -/
def fixed (width : Nat) : Decoder Nat := return fromLittleEndian (← bytes width)

def int : Decoder Int32 := return (UInt32.ofNat (← fixed 4)).toInt32

/-- Reads groups of seven bits, as many as may still follow; the last one holds four bits only. -/
def groups (start : Nat) : (remaining : Nat) → Decoder Nat
  | 0 => do
    let _ ← byte
    throw (.valueTooLarge start)
  | remaining + 1 => do
    let b ← byte
    let low := b.toNat % 128
    if remaining = 0 ∧ 16 ≤ low then throw (.valueTooLarge start)
    if b.toNat < 128 then return low
    return low + 128 * (← groups start remaining)

/-- Reads a number of at most 32 bits. -/
def varInt : Decoder Nat := do groups (← position) 5

/-- Reads a number of at most 16 bits. -/
def index : Decoder UInt16 := do
  let start ← position
  let n ← varInt
  if n < 0x10000 then return UInt16.ofNat n else throw (.valueTooLarge start)

def label : Decoder Label := return ⟨UInt32.ofNat (← varInt)⟩

/-- Reads as many things as asked for. -/
def many {α : Type} (element : Decoder α) : Nat → Decoder (List α)
  | 0 => return []
  | n + 1 => do
    let x ← element
    let xs ← many element n
    return x :: xs

/-- Reads a number, and then as many things. -/
def list {α : Type} (element : Decoder α) : Decoder (List α) := do many element (← varInt)

def text : Decoder String := do
  let length ← varInt
  let start ← position
  let content ← bytes length
  match String.fromUTF8? ⟨content.toArray⟩ with
  | some s => return s
  | none => throw (.invalidUtf8 start)

/-- Reads a text that has to be a descriptor. -/
def descriptor {α : Type} (parse : String → Except DescriptorError α) : Decoder α := do
  let start ← position
  match parse (← text) with
  | .ok t => return t
  | .error cause => throw (.invalidDescriptor start cause)

def valueType : Decoder ValueType := descriptor ValueType.parse

def methodType : Decoder MethodType := descriptor MethodType.parse

/-- Reads a byte that has to stand for something. -/
def operand {α : Type} (name : String) (ofByte? : UInt8 → Option α) : Decoder α := do
  let start ← position
  let b ← byte
  match ofByte? b with
  | some x => return x
  | none => throw (.invalidOperand name b start)

def valueKind : Decoder ValueKind := operand "value kind" ValueKind.ofByte?

def numericKind : Decoder NumericKind := operand "numeric kind" NumericKind.ofByte?

def condition : Decoder Condition := operand "condition" Condition.ofByte?

def binaryOp : Decoder BinaryOp := operand "binary op" BinaryOp.ofByte?

def flag : Decoder Bool :=
  operand "flag" fun b => if b = 0 then some false else if b = 1 then some true else none

def opcode : Decoder Opcode := do
  let start ← position
  let b ← byte
  match Opcode.ofByte? b with
  | some o => return o
  | none => throw (.unknownOpcode b start)

def switchCase : Decoder (Int32 × Label) := do
  let key ← int
  let target ← label
  return (key, target)

def methodRef : Decoder MethodRef := do
  let owner ← text
  let name ← text
  let type ← methodType
  return ⟨owner, name, type⟩

/-- Reads what follows an opcode. -/
def operands : Opcode → Decoder Instruction
  | .label => return .label (← label)
  | .nop => return .nop
  | .constNull => return .const .null
  | .constInt => return .const (.int (← int))
  | .constLong => return .const (.long (UInt64.ofNat (← fixed 8)).toInt64)
  | .constFloat => return .const (.float (UInt32.ofNat (← fixed 4)))
  | .constDouble => return .const (.double (UInt64.ofNat (← fixed 8)))
  | .constString => return .const (.string (← text))
  | .load => do
    let kind ← valueKind
    return .load kind (← index)
  | .store => do
    let kind ← valueKind
    return .store kind (← index)
  | .increment => do
    let i ← index
    return .increment i (UInt16.ofNat (← fixed 2)).toInt16
  | .pop => return .pop
  | .pop2 => return .pop2
  | .dup => return .dup
  | .dupX1 => return .dupX1
  | .dupX2 => return .dupX2
  | .dup2 => return .dup2
  | .swap => return .swap
  | .binary => do
    let op ← binaryOp
    return .binary op (← numericKind)
  | .negate => return .negate (← numericKind)
  | .convert => do
    let source ← numericKind
    return .convert source (← numericKind)
  | .compare => do
    let kind ← numericKind
    return .compare kind (← flag)
  | .ifZero => do
    let condition ← condition
    return .ifZero condition (← label)
  | .ifCompare => do
    let condition ← condition
    return .ifCompare condition (← label)
  | .ifSame => do
    let same ← flag
    return .ifSame same (← label)
  | .ifNull => do
    let null ← flag
    return .ifNull null (← label)
  | .goto => return .goto (← label)
  | .jumpSubroutine => return .jumpSubroutine (← label)
  | .returnSubroutine => return .returnSubroutine (← index)
  | .tableSwitch => do
    let low ← int
    let otherwise ← label
    return .tableSwitch low otherwise (← list label)
  | .lookupSwitch => do
    let otherwise ← label
    return .lookupSwitch otherwise (← list switchCase)
  | .invokeStatic => return .invoke .static (← methodRef)
  | .invokeVirtual => return .invoke .virtual (← methodRef)
  | .newArray => return .newArray (← valueType)
  | .arrayLength => return .arrayLength
  | .arrayLoad => return .arrayLoad (← valueKind)
  | .arrayStore => return .arrayStore (← valueKind)
  | .checkCast => return .checkCast (← valueType)
  | .instanceOf => return .instanceOf (← valueType)
  | .throw => return .throw
  | .monitorEnter => return .monitorEnter
  | .monitorExit => return .monitorExit
  | .leave => return .leave (some (← valueKind))
  | .leaveVoid => return .leave none

def instruction : Decoder Instruction := do operands (← opcode)

/-- Reads a frame value; references have to be to object or array types. -/
def frameValue : Decoder FrameValue := do
  let start ← position
  let b ← byte
  match b with
  | 0 => return .top
  | 1 => return .int
  | 2 => return .float
  | 3 => return .long
  | 4 => return .double
  | 5 => return .null
  | 6 =>
    let type ← valueType
    if type.isReference then return .reference type
    throw (.invalidOperand "frame reference" b start)
  | _ => throw (.invalidOperand "frame value" b start)

def stackMapEntry : Decoder StackMapEntry := do
  let label ← label
  let locals ← list frameValue
  let stack ← list frameValue
  return ⟨label, locals, stack.reverse⟩

/-- Reads stack map entries for different labels among the placed ones. -/
def stackMap (method : String) (placed : List Label) : (seen : List Label) → Nat →
    Decoder (List StackMapEntry)
  | _, 0 => return []
  | seen, n + 1 => do
    let entry ← stackMapEntry
    if entry.label ∉ placed then throw (.unknownStackMapLabel method entry.label)
    if entry.label ∈ seen then throw (.labels method (.duplicate entry.label))
    let entries ← stackMap method placed (entry.label :: seen) n
    return entry :: entries

def method : Decoder Method := do
  let access ← fixed 2
  let name ← text
  let type ← methodType
  let maxStack ← index
  let maxLocals ← index
  let body := Body.ofList (← list instruction)
  let signature := name ++ type.text
  match body.labelPositions with
  | .error cause => throw (.labels signature cause)
  | .ok places =>
    let entries ← stackMap signature (places.map (·.1)) [] (← varInt)
    return ⟨name, type, ⟨UInt16.ofNat access⟩, maxStack, maxLocals, body, entries⟩

/-- Reads a unit, header included. -/
def unit : Decoder CompiledUnit := do
  let cursor ← get
  match split? 4 cursor.rest with
  | none => throw .invalidMagic
  | some (front, rest) =>
    if front ≠ Encoding.magic then throw .invalidMagic
    set (ByteCursor.mk (cursor.position + 4) rest)
    let version ← byte
    if version ≠ Encoding.version then throw (.unsupportedVersion version)
    let flags ← byte
    let name ← text
    let methods ← list method
    return ⟨name, ⟨flags⟩, methods⟩

end Decoder

/-- Reads a unit, which nothing may follow. -/
def CompiledUnit.decode (bytes : Bytes) : Except DecodeError CompiledUnit := do
  let (u, cursor) ← Decoder.unit.run ⟨0, bytes⟩
  if cursor.rest = [] then return u
  throw (.trailingBytes cursor.position)

end Resumable
