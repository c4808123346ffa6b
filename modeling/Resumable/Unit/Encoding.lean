import Resumable.Unit.Basic
import Resumable.Unit.Opcode

/-!
# Writing units as bytes

A unit is written after a header.  Counts, labels and slot numbers take as few bytes as they need,
seven bits in each; constants and flags have fixed widths, with the lowest byte first; texts are
their length in bytes followed by UTF-8.
-/

namespace Resumable

/-- A sequence of bytes. -/
abbrev Bytes := List UInt8

namespace Encoding

/-- The bytes that every unit starts with. -/
def magic : Bytes := [0x43, 0x4F, 0x49, 0x4C]

/-- The version of the format. -/
def version : UInt8 := 1

/-- The number in groups of seven bits, the lowest group first; every byte but the last has its top
bit set. -/
def varInt (n : Nat) : Bytes :=
  if n < 128 then [UInt8.ofNat n] else UInt8.ofNat (n % 128 + 128) :: varInt (n / 128)

/-- The lowest `width` bytes of the number, the lowest one first. -/
def littleEndian : (width : Nat) → Nat → Bytes
  | 0, _ => []
  | width + 1, n => UInt8.ofNat (n % 256) :: littleEndian width (n / 256)

/-- The length of a list, which the format counts in 32 bits. -/
def count (n : Nat) : Bytes := varInt (n % 0x100000000)

def label (l : Label) : Bytes := varInt l.number.toNat

def index (i : UInt16) : Bytes := varInt i.toNat

def flag (b : Bool) : UInt8 := if b then 1 else 0

def int (n : Int32) : Bytes := littleEndian 4 n.toUInt32.toNat

/-- The bytes of a text after their number. -/
def text (s : String) : Bytes :=
  let bytes := s.toUTF8.data.toList
  count bytes.length ++ bytes

/-- A list's elements after their number. -/
def list {α : Type} (element : α → Bytes) (xs : List α) : Bytes :=
  count xs.length ++ xs.flatMap element

def valueType (t : ValueType) : Bytes := text t.text

def methodType (t : MethodType) : Bytes := text t.text

/-- The bytes that follow an instruction's opcode. -/
def operands : Instruction → Bytes
  | .label l => label l
  | .const (.int n) => int n
  | .const (.long n) => littleEndian 8 n.toUInt64.toNat
  | .const (.float word) => littleEndian 4 word.toNat
  | .const (.double word) => littleEndian 8 word.toNat
  | .const (.string s) => text s
  | .load kind i | .store kind i => kind.byte :: index i
  | .increment i delta => index i ++ littleEndian 2 delta.toUInt16.toNat
  | .binary op kind => [op.byte, kind.byte]
  | .negate kind => [kind.byte]
  | .convert source target => [source.byte, target.byte]
  | .compare kind nanIsGreater => [kind.byte, flag nanIsGreater]
  | .ifZero condition target | .ifCompare condition target => condition.byte :: label target
  | .ifSame same target => flag same :: label target
  | .ifNull null target => flag null :: label target
  | .goto target | .jumpSubroutine target => label target
  | .returnSubroutine i => index i
  | .tableSwitch low otherwise targets => int low ++ label otherwise ++ list label targets
  | .lookupSwitch otherwise cases =>
    label otherwise ++ list (fun (key, target) => int key ++ label target) cases
  | .invoke _ method => text method.owner ++ text method.name ++ methodType method.type
  | .newArray type | .checkCast type | .instanceOf type => valueType type
  | .arrayLoad kind | .arrayStore kind | .leave (some kind) => [kind.byte]
  | _ => []

def instruction (i : Instruction) : Bytes := i.opcode.byte :: operands i

def frameValue : FrameValue → Bytes
  | .top => [0]
  | .int => [1]
  | .float => [2]
  | .long => [3]
  | .double => [4]
  | .null => [5]
  | .reference type => 6 :: valueType type

/-- A stack map entry, with the operand stack from its bottom up. -/
def stackMapEntry (e : StackMapEntry) : Bytes :=
  label e.label ++ list frameValue e.frame.locals ++ list frameValue e.frame.stack.reverse

def method (m : Method) : Bytes :=
  littleEndian 2 m.access.bits.toNat ++ text m.name ++ methodType m.type ++ index m.maxStack ++
    index m.maxLocals ++ list instruction m.body.instructions ++ list stackMapEntry m.stackMap

end Encoding

/-- The bytes of a unit. -/
def CompiledUnit.encode (u : CompiledUnit) : Bytes :=
  Encoding.magic ++ Encoding.version :: u.flags.bits :: Encoding.text u.name ++
    Encoding.list Encoding.method u.methods

end Resumable
