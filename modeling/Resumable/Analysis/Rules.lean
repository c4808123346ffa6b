import Resumable.Analysis.Error
import Resumable.Unit.Basic

/-!
# The rules of the instructions

Each instruction turns the frame before it into the frame after it, or doesn't fit the frame before
it.  `Method.transfer` gives the rule of every instruction; nothing in it depends on where the
instruction stands.
-/

namespace Resumable

namespace Frame

/-- What a rule gives: a result, or what is wrong. -/
abbrev Ruled (α : Type) := Except AnalysisCause α

/-- Takes the top of the operand stack. -/
def pop (f : Frame) : Ruled (FrameValue × Frame) :=
  match f.stack with
  | v :: stack => .ok (v, { f with stack })
  | [] => .error .stackUnderflow

/-- Takes a value that fills one slot. -/
def popSingle (f : Frame) : Ruled (FrameValue × Frame) := do
  let (v, f) ← f.pop
  if v.isWide then throw (.unexpectedType .singleSlot v)
  return (v, f)

/-- Takes a value of a kind. -/
def popKind (f : Frame) (kind : ValueKind) : Ruled (FrameValue × Frame) := do
  let (v, f) ← f.pop
  if v.kind? = some kind then return (v, f)
  throw (.unexpectedType (.kind kind) v)

/-- Takes a value that can be used where the type is expected. -/
def popType (f : Frame) (type : ValueType) : Ruled Frame := do
  let (v, f) ← f.pop
  if (FrameValue.ofType type).isAssignableFrom v then return f
  throw (.unexpectedType (.type type) v)

/-- Takes values of the types, the last one from the top. -/
def popTypes (f : Frame) (types : List ValueType) : Ruled Frame := types.reverse.foldlM popType f

/-- Takes an array whose elements have the kind, if one is given, and tells the type of its
elements.  Null is an array of an unknown type. -/
def popArray (f : Frame) (kind : Option ValueKind) : Ruled (Option ValueType × Frame) := do
  let (v, f) ← f.pop
  let expected := match kind with
    | some k => Expectation.arrayOf k
    | none => .array
  match v with
  | .null => return (none, f)
  | .reference (.array element) =>
    if kind.all (· = element.kind) then return (some element, f)
    throw (.unexpectedType expected v)
  | _ => throw (.unexpectedType expected v)

/-- The value on top of the operand stack. -/
def peek (f : Frame) : Ruled FrameValue :=
  match f.stack with
  | v :: _ => .ok v
  | [] => .error .stackUnderflow

/-- Puts a value on the operand stack, which holds at most `maxStack` slots. -/
def push (f : Frame) (maxStack : Nat) (v : FrameValue) : Ruled Frame :=
  let f := { f with stack := v :: f.stack }
  if maxStack < f.stackSlots then .error (.stackOverflow maxStack) else .ok f

/-- Puts values on the operand stack, the last one on top. -/
def pushAll (f : Frame) (maxStack : Nat) (values : List FrameValue) : Ruled Frame :=
  values.foldlM (fun f v => f.push maxStack v) f

/-- Fails unless a value has room at the local's index. -/
def checkLocal (maxLocals index : Nat) (wide : Bool) : Ruled Unit :=
  let last := if wide then index + 1 else index
  if last < maxLocals then .ok () else .error (.invalidLocal last maxLocals)

/-- The value of a local of the given kind. -/
def load (f : Frame) (maxLocals : Nat) (kind : ValueKind) (index : Nat) : Ruled FrameValue := do
  checkLocal maxLocals index kind.isWide
  let v := f.locals.getD index .top
  if v.kind? = some kind then return v
  throw (.unexpectedType (.kindInLocal kind index) v)

/-- The locals after a value is stored.  It makes a wide value that it overlaps unusable, and the
second slot of a wide value holds nothing of its own. -/
def storeLocals (locals : List FrameValue) (index : Nat) (v : FrameValue) : List FrameValue :=
  let cleared :=
    if 0 < index ∧ (locals.getD (index - 1) .top).isWide then locals.set (index - 1) .top
    else locals
  let widened := if v.isWide then cleared.set (index + 1) .top else cleared
  widened.set index v

/-- Stores a value in a local. -/
def store (f : Frame) (maxLocals index : Nat) (v : FrameValue) : Ruled Frame := do
  checkLocal maxLocals index v.isWide
  return { f with locals := storeLocals f.locals index v }

end Frame

namespace Method

open Resumable.Frame (Ruled)

/-- The operands of a return, which have to fit the method's result. -/
def transferLeave (m : Method) (f : Frame) (kind : Option ValueKind) : Ruled Frame :=
  match m.type.returns, kind with
  | none, none => .ok f
  | some type, some kind =>
    if type.kind = kind then f.popType type else .error (.returnMismatch (some type))
  | returns, _ => .error (.returnMismatch returns)

/-- The instructions that only move values on the operand stack. -/
def transferShuffle (m : Method) (f : Frame) : Instruction → Ruled Frame
  | .pop => do
    let (_, f) ← f.popSingle
    return f
  | .pop2 => do
    if (← f.peek).isWide then
      let (_, f) ← f.pop
      return f
    let (_, f) ← f.popSingle
    let (_, f) ← f.popSingle
    return f
  | .dup => do
    let (a, f) ← f.popSingle
    f.pushAll m.maxStack.toNat [a, a]
  | .dupX1 => do
    let (a, f) ← f.popSingle
    let (b, f) ← f.popSingle
    f.pushAll m.maxStack.toNat [a, b, a]
  | .dupX2 => do
    let (a, f) ← f.popSingle
    if (← f.peek).isWide then
      let (b, f) ← f.pop
      f.pushAll m.maxStack.toNat [a, b, a]
    else
      let (b, f) ← f.popSingle
      let (c, f) ← f.popSingle
      f.pushAll m.maxStack.toNat [a, c, b, a]
  | .dup2 => do
    if (← f.peek).isWide then
      let (a, f) ← f.pop
      f.pushAll m.maxStack.toNat [a, a]
    else
      let (a, f) ← f.popSingle
      let (b, f) ← f.popSingle
      f.pushAll m.maxStack.toNat [b, a, b, a]
  | .swap => do
    let (a, f) ← f.popSingle
    let (b, f) ← f.popSingle
    f.pushAll m.maxStack.toNat [a, b]
  | _ => return f

/-- The frame value of a constant. -/
def constantValue : Constant → FrameValue
  | .null => .null
  | .int _ => .int
  | .long _ => .long
  | .float _ => .float
  | .double _ => .double
  | .string _ => .reference (.object stringTypeName)

/-- The frame after an instruction of the method, given the frame before it. -/
def transfer (m : Method) (f : Frame) (i : Instruction) : Ruled Frame :=
  let maxStack := m.maxStack.toNat
  let maxLocals := m.maxLocals.toNat
  match i with
  | .label _ | .nop | .goto _ => return f
  | .const c => f.push maxStack (constantValue c)
  | .load kind index => do
    let v ← f.load maxLocals kind index.toNat
    f.push maxStack v
  | .store kind index => do
    let (v, f) ← f.popKind kind
    f.store maxLocals index.toNat v
  | .increment index _ => do
    let _ ← f.load maxLocals .int index.toNat
    return f
  | .pop | .pop2 | .dup | .dupX1 | .dupX2 | .dup2 | .swap => m.transferShuffle f i
  | .binary op kind => do
    if op.isIntegralOnly ∧ (kind = .float ∨ kind = .double) then
      throw (.invalidOperation op kind)
    let (_, f) ← f.popKind (if op.isShift then .int else kind.toValueKind)
    let (v, f) ← f.popKind kind.toValueKind
    f.push maxStack v
  | .negate kind => do
    let (v, f) ← f.popKind kind.toValueKind
    f.push maxStack v
  | .convert source target => do
    let (_, f) ← f.popKind source.toValueKind
    f.push maxStack (.ofKind target.toValueKind)
  | .compare kind _ => do
    let (_, f) ← f.popKind kind.toValueKind
    let (_, f) ← f.popKind kind.toValueKind
    f.push maxStack .int
  | .ifZero .. | .tableSwitch .. | .lookupSwitch .. => do
    let (_, f) ← f.popKind .int
    return f
  | .ifCompare .. => do
    let (_, f) ← f.popKind .int
    let (_, f) ← f.popKind .int
    return f
  | .ifSame .. => do
    let (_, f) ← f.popKind .reference
    let (_, f) ← f.popKind .reference
    return f
  | .ifNull .. | .throw | .monitorEnter | .monitorExit => do
    let (_, f) ← f.popKind .reference
    return f
  | .jumpSubroutine _ | .returnSubroutine _ => throw (.unsupportedInstruction i.name)
  | .invoke kind method => do
    let f ← f.popTypes method.type.params
    let f ← if kind = .virtual then f.popType (.object method.owner) else pure f
    match method.type.returns with
    | some type => f.push maxStack (.ofType type)
    | none => return f
  | .newArray element => do
    let (_, f) ← f.popKind .int
    f.push maxStack (.reference (.array element))
  | .arrayLength => do
    let (_, f) ← f.popArray none
    f.push maxStack .int
  | .arrayLoad kind => do
    let (_, f) ← f.popKind .int
    let (element, f) ← f.popArray (some kind)
    match element with
    | some type => f.push maxStack (.ofType type)
    | none => f.push maxStack (if kind = .reference then .null else .ofKind kind)
  | .arrayStore kind => do
    let (_, f) ← f.popKind kind
    let (_, f) ← f.popKind .int
    let (_, f) ← f.popArray (some kind)
    return f
  | .checkCast type => do
    if ¬ type.isReference then throw (.expectedReferenceType type)
    let (_, f) ← f.popKind .reference
    f.push maxStack (.reference type)
  | .instanceOf type => do
    if ¬ type.isReference then throw (.expectedReferenceType type)
    let (_, f) ← f.popKind .reference
    f.push maxStack .int
  | .leave kind => m.transferLeave f kind

end Method

end Resumable
