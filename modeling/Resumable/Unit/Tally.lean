import Resumable.Unit.Decoding

/-!
# Reading with a tally of loops

Units are read in loops: over methods, instructions, the targets and cases of switches, the entries
of stack maps and the frame values in them.  How many rounds a loop has is told by a number in the
input, which may be anything.  The readers here read what those of `Decoder` do, and keep a tally of
their loops besides, which is there even if nothing comes of the reading.  Whatever has no loop is
left to `Decoder`.
-/

namespace Resumable

/-- A round of a loop that has been gone through: where it began to read and where it stopped. -/
structure Round where
  start : Nat
  stop : Nat
deriving DecidableEq

/-- What's noted of loops. -/
@[ext]
structure Tally where
  /-- The numbers of rounds that were asked for, each with the number of bytes behind it. -/
  counts : List (Nat × Nat)
  /-- How many rounds were begun. -/
  begun : Nat
  /-- The rounds that were gone through, in the order in which they ended. -/
  rounds : List Round
deriving DecidableEq

namespace Tally

def empty : Tally := ⟨[], 0, []⟩

def append (t t' : Tally) : Tally :=
  ⟨t.counts ++ t'.counts, t.begun + t'.begun, t.rounds ++ t'.rounds⟩

instance : Append Tally := ⟨append⟩

end Tally

/-- A reader that gives a tally, whether or not it fails. -/
structure Tallied (α : Type) where
  run : ByteCursor → Except DecodeError (α × ByteCursor) × Tally

/-- Reads the four bytes that all units begin with. -/
def Decoder.mark : Decoder Unit := do
  let cursor ← get
  match split? 4 cursor.rest with
  | none => throw .invalidMagic
  | some (front, rest) =>
    if front ≠ Encoding.magic then throw .invalidMagic
    set (ByteCursor.mk (cursor.position + 4) rest)

namespace Tallied

variable {α : Type}

instance : Monad Tallied where
  pure x := ⟨fun c => (.ok (x, c), .empty)⟩
  bind m f := ⟨fun c =>
    match m.run c with
    | (.ok (x, c'), t) => (((f x).run c').1, t ++ ((f x).run c').2)
    | (.error e, t) => (.error e, t)⟩

/-- Reads without a loop, so that there's nothing to note. -/
def plain (d : Decoder α) : Tallied α := ⟨fun c => (d.run c, .empty)⟩

def note (t : Tally) : Tallied Unit := ⟨fun c => (.ok ((), c), t)⟩

/-- Goes through a loop of which so many rounds are asked for. -/
def asked (n : Nat) (loop : Tallied α) : Tallied α := do
  let c ← plain get
  note ⟨[(n, c.rest.length)], 0, []⟩
  loop

/-- Reads how many rounds are asked for, and goes through the loop. -/
def counted (loop : Nat → Tallied α) : Tallied α := do
  let n ← plain Decoder.varInt
  asked n (loop n)

/-- Goes through one round of a loop. -/
def round (body : Tallied α) : Tallied α := do
  let start ← plain Decoder.position
  note ⟨[], 1, []⟩
  let x ← body
  let stop ← plain Decoder.position
  note ⟨[], 0, [⟨start, stop⟩]⟩
  return x

/-- Reads as many things as asked for. -/
def many (element : Tallied α) : Nat → Tallied (List α)
  | 0 => return []
  | n + 1 => do
    let x ← round element
    let xs ← many element n
    return x :: xs

/-- Reads a number, and then as many things. -/
def list (element : Tallied α) : Tallied (List α) := counted (many element)

/-- Reads what follows an opcode. -/
def operands : Opcode → Tallied Instruction
  | .tableSwitch => do
    let low ← plain Decoder.int
    let otherwise ← plain Decoder.label
    return .tableSwitch low otherwise (← list (plain Decoder.label))
  | .lookupSwitch => do
    let otherwise ← plain Decoder.label
    return .lookupSwitch otherwise (← list (plain Decoder.switchCase))
  | o => plain (Decoder.operands o)

def instruction : Tallied Instruction := do operands (← plain Decoder.opcode)

def stackMapEntry : Tallied StackMapEntry := do
  let label ← plain Decoder.label
  let locals ← list (plain Decoder.frameValue)
  let stack ← list (plain Decoder.frameValue)
  return ⟨label, locals, stack.reverse⟩

/-- Reads a stack map entry for a placed label that none was seen for. -/
def placedEntry (method : String) (placed seen : List Label) : Tallied StackMapEntry := do
  let entry ← stackMapEntry
  if entry.label ∉ placed then plain (throw (.unknownStackMapLabel method entry.label))
  if entry.label ∈ seen then plain (throw (.labels method (.duplicate entry.label)))
  return entry

/-- Reads stack map entries for different labels among the placed ones. -/
def stackMap (method : String) (placed : List Label) : (seen : List Label) → Nat →
    Tallied (List StackMapEntry)
  | _, 0 => return []
  | seen, n + 1 => do
    let entry ← round (placedEntry method placed seen)
    let entries ← stackMap method placed (entry.label :: seen) n
    return entry :: entries

def method : Tallied Method := do
  let access ← plain (Decoder.fixed 2)
  let name ← plain Decoder.text
  let type ← plain Decoder.methodType
  let maxStack ← plain Decoder.index
  let maxLocals ← plain Decoder.index
  let body := Body.ofList (← list instruction)
  let signature := name ++ type.text
  match body.labelPositions with
  | .error cause => plain (throw (.labels signature cause))
  | .ok places =>
    let entries ← counted (stackMap signature (places.map (·.1)) [])
    return ⟨name, type, ⟨UInt16.ofNat access⟩, maxStack, maxLocals, body, entries⟩

/-- Reads a unit, header included. -/
def unit : Tallied CompiledUnit := do
  plain Decoder.mark
  let version ← plain Decoder.byte
  if version ≠ Encoding.version then plain (throw (.unsupportedVersion version))
  let flags ← plain Decoder.byte
  let name ← plain Decoder.text
  let methods ← list method
  return ⟨name, ⟨flags⟩, methods⟩

end Tallied

namespace CompiledUnit

/-- Reads a unit, which nothing may follow, and gives the tally of all loops. -/
def decodeTallied (bytes : Bytes) : Except DecodeError CompiledUnit × Tally :=
  match Tallied.unit.run ⟨0, bytes⟩ with
  | (.ok (u, c), t) => (if c.rest = [] then .ok u else .error (.trailingBytes c.position), t)
  | (.error e, t) => (.error e, t)

end CompiledUnit

end Resumable
