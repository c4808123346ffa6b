import Resumable.Machine.Arithmetic

/-!
# Execution of single instructions

`ValueFrame.execute` says what each instruction does to the locals, the operand stack and the world,
and how execution goes on from it.  Invocations only collect their arguments here; which method they
get to is up to the machine.  An instruction that fails leaves the world as it was.
-/

namespace Resumable

/-- What a running method holds: its local slots, by index, and its operand stack, from the top
down.  The second slot of a wide local is null. -/
structure ValueFrame where
  locals : List Value
  stack : List Value
deriving DecidableEq, Inhabited

/-- How execution goes on after an instruction. -/
inductive Flow
  | proceed
  | jump (target : Label)
  /-- Into another method, and on from here when it's left. -/
  | call (kind : InvokeKind) (method : MethodRef) (args : List Value)
  /-- Out of the method. -/
  | leave (result : Option Value)
deriving DecidableEq

/-- A result, or the error that stops the call. -/
abbrev Attempt (α : Type) := Except MachineError α

namespace World

/-- The value of a constant.  Each time a string is a new object. -/
def constant (w : World) : Constant → Value × World
  | .null => (.null, w)
  | .int n => (.int n, w)
  | .long n => (.long n, w)
  | .float word => (.float word, w)
  | .double word => (.double word, w)
  | .string s => w.allocate (.string s)

/-- A new array of zeros, or of nulls. -/
def newArray (w : World) (element : ValueType) (length : Nat) : Value × World :=
  w.allocate (.array element (Array.replicate length (.zero element.kind)))

/-- The array that a value refers to: its address, the type of its elements and the elements. -/
def array (w : World) (v : Value) : Attempt (Nat × ValueType × Array Value) :=
  match v with
  | .null => .error .nullReference
  | .object address =>
    match w.object? address with
    | some (.array element values) => .ok (address, element, values)
    | _ => .error (.misuse (.expectedArray v))
  | v => .error (.misuse (.expectedArray v))

/-- Fails unless the value can be used where the type is expected. -/
def checkInstance (w : World) (v : Value) (expected : ValueType) : Attempt Unit :=
  if w.isInstance v expected then .ok () else .error (.classCast expected (w.typeOf v))

end World

/-- The place of an index in an array of the given length. -/
def checkIndex (index : Int32) (length : Nat) : Attempt Nat :=
  if 0 ≤ index.toInt ∧ index.toInt < length then .ok index.toInt.toNat
  else .error (.indexOutOfBounds index length)

/-- The label that a table switch jumps to. -/
def tableTarget (low value : Int32) (otherwise : Label) (targets : List Label) : Label :=
  let distance := value.toInt - low.toInt
  if distance < 0 then otherwise else targets.getD distance.toNat otherwise

/-- The label that a lookup switch jumps to. -/
def lookupTarget (value : Int32) (otherwise : Label) (cases : List (Int32 × Label)) : Label :=
  (cases.lookup value).getD otherwise

namespace ValueFrame

/-- The frame in which a method starts: the arguments, and nulls up to the number of locals. -/
def entry (args : List Value) (maxLocals : Nat) : ValueFrame :=
  let slots := args.flatMap fun v => if v.isWide then [v, .null] else [v]
  ⟨slots ++ List.replicate (maxLocals - slots.length) .null, []⟩

/-- Puts a value on the operand stack. -/
def push (f : ValueFrame) (v : Value) : ValueFrame := { f with stack := v :: f.stack }

/-- Puts values on the operand stack, the last one on top. -/
def pushAll (f : ValueFrame) (values : List Value) : ValueFrame := values.foldl push f

/-- Takes the top of the operand stack. -/
def pop (f : ValueFrame) : Attempt (Value × ValueFrame) :=
  match f.stack with
  | v :: stack => .ok (v, { f with stack })
  | [] => .error (.misuse .stackUnderflow)

/-- Takes an int. -/
def popInt (f : ValueFrame) : Attempt (Int32 × ValueFrame) := do
  let (v, f) ← f.pop
  match v with
  | .int n => return (n, f)
  | v => throw (.misuse (.expectedInt v))

/-- Takes the given number of values, and lists them from the bottom up. -/
def popMany (f : ValueFrame) (count : Nat) : Attempt (List Value × ValueFrame) :=
  if f.stack.length < count then .error (.misuse .stackUnderflow)
  else .ok ((f.stack.take count).reverse, { f with stack := f.stack.drop count })

/-- The value of a local. -/
def load (f : ValueFrame) (index : Nat) : Attempt Value :=
  match f.locals[index]? with
  | some v => .ok v
  | none => .error (.misuse (.invalidLocal index))

/-- Stores a value in a local. -/
def store (f : ValueFrame) (index : Nat) (v : Value) : Attempt ValueFrame :=
  if index < f.locals.length then .ok { f with locals := f.locals.set index v }
  else .error (.misuse (.invalidLocal index))

/-- The frame after one of the instructions that only move values on the operand stack. -/
def shuffle (f : ValueFrame) : Instruction → Attempt ValueFrame
  | .pop => do
    let (_, f) ← f.pop
    return f
  | .pop2 => do
    let (a, f) ← f.pop
    if a.isWide then return f
    let (_, f) ← f.pop
    return f
  | .dup => do
    let (a, f) ← f.pop
    return f.pushAll [a, a]
  | .dupX1 => do
    let (a, f) ← f.pop
    let (b, f) ← f.pop
    return f.pushAll [a, b, a]
  | .dupX2 => do
    let (a, f) ← f.pop
    let (b, f) ← f.pop
    if b.isWide then return f.pushAll [a, b, a]
    let (c, f) ← f.pop
    return f.pushAll [a, c, b, a]
  | .dup2 => do
    let (a, f) ← f.pop
    if a.isWide then return f.pushAll [a, a]
    let (b, f) ← f.pop
    return f.pushAll [b, a, b, a]
  | .swap => do
    let (a, f) ← f.pop
    let (b, f) ← f.pop
    return f.pushAll [a, b]
  | _ => return f

/-- The frame after an instruction that computes, and needs no world. -/
def compute (f : ValueFrame) : Instruction → Attempt ValueFrame
  | .binary op kind => do
    let (right, f) ← f.pop
    let (left, f) ← f.pop
    let v ← op.perform kind left right
    return f.push v
  | .negate _ => do
    let (v, f) ← f.pop
    let v ← v.negate
    return f.push v
  | .convert _ target => do
    let (v, f) ← f.pop
    let v ← v.convert target
    return f.push v
  | .compare _ nanIsGreater => do
    let (right, f) ← f.pop
    let (left, f) ← f.pop
    let ordering ← left.compare? right
    return f.push (.ofOrdering nanIsGreater ordering)
  | _ => return f

/-- Where a jump goes to, and the frame after it. -/
def branch (f : ValueFrame) : Instruction → Attempt (Flow × ValueFrame)
  | .ifZero condition target => do
    let (n, f) ← f.popInt
    return (if condition.test n 0 then .jump target else .proceed, f)
  | .ifCompare condition target => do
    let (right, f) ← f.popInt
    let (left, f) ← f.popInt
    return (if condition.test left right then .jump target else .proceed, f)
  | .ifSame same target => do
    let (right, f) ← f.pop
    let (left, f) ← f.pop
    let found := left.kind = .reference && left = right
    return (if found = same then .jump target else .proceed, f)
  | .ifNull null target => do
    let (v, f) ← f.pop
    return (if v.isNull = null then .jump target else .proceed, f)
  | .goto target => return (.jump target, f)
  | .tableSwitch low otherwise targets => do
    let (n, f) ← f.popInt
    return (.jump (tableTarget low n otherwise targets), f)
  | .lookupSwitch otherwise cases => do
    let (n, f) ← f.popInt
    return (.jump (lookupTarget n otherwise cases), f)
  | _ => return (.proceed, f)

/-- What an instruction on objects does. -/
def access (w : World) (f : ValueFrame) : Instruction → Attempt (ValueFrame × World)
  | .newArray element => do
    let (length, f) ← f.popInt
    if length < 0 then throw (.negativeArraySize length)
    let (v, w) := w.newArray element length.toInt.toNat
    return (f.push v, w)
  | .arrayLength => do
    let (v, f) ← f.pop
    let (_, _, values) ← w.array v
    return (f.push (.int (Int32.ofNat values.size)), w)
  | .arrayLoad _ => do
    let (index, f) ← f.popInt
    let (v, f) ← f.pop
    let (_, _, values) ← w.array v
    let place ← checkIndex index values.size
    return (f.push (values.getD place .null), w)
  | .arrayStore _ => do
    let (v, f) ← f.pop
    let (index, f) ← f.popInt
    let (target, f) ← f.pop
    let (address, element, values) ← w.array target
    w.checkInstance v element
    let place ← checkIndex index values.size
    return (f, w.setElement address place v)
  | .checkCast type => do
    let (v, f) ← f.pop
    w.checkInstance v type
    return (f.push v, w)
  | .instanceOf type => do
    let (v, f) ← f.pop
    return (f.push (.ofBool (!v.isNull && w.isInstance v type)), w)
  | _ => return (f, w)

/-- Executes one instruction. -/
def execute (w : World) (f : ValueFrame) (i : Instruction) :
    Attempt (Flow × ValueFrame × World) :=
  match i with
  | .label _ | .nop => return (.proceed, f, w)
  | .const c =>
    let (v, w) := w.constant c
    return (.proceed, f.push v, w)
  | .load _ index => do
    let v ← f.load index.toNat
    return (.proceed, f.push v, w)
  | .store _ index => do
    let (v, f) ← f.pop
    let f ← f.store index.toNat v
    return (.proceed, f, w)
  | .increment index delta => do
    match ← f.load index.toNat with
    | .int n =>
      let f ← f.store index.toNat (.int (n + delta.toInt32))
      return (.proceed, f, w)
    | v => throw (.misuse (.expectedIntLocal v))
  | .pop | .pop2 | .dup | .dupX1 | .dupX2 | .dup2 | .swap => do
    let f ← f.shuffle i
    return (.proceed, f, w)
  | .binary .. | .negate _ | .convert .. | .compare .. => do
    let f ← f.compute i
    return (.proceed, f, w)
  | .ifZero .. | .ifCompare .. | .ifSame .. | .ifNull .. | .goto _ | .tableSwitch ..
  | .lookupSwitch .. => do
    let (flow, f) ← f.branch i
    return (flow, f, w)
  | .jumpSubroutine _ | .returnSubroutine _ => throw (.unsupportedInstruction i.name)
  | .invoke kind method => do
    let receivers := match kind with
      | .static => 0
      | .virtual => 1
    let (args, f) ← f.popMany (method.type.params.length + receivers)
    return (.call kind method args, f, w)
  | .newArray _ | .arrayLength | .arrayLoad _ | .arrayStore _ | .checkCast _ | .instanceOf _ => do
    let (f, w) ← f.access w i
    return (.proceed, f, w)
  | .throw => do
    let (v, _) ← f.pop
    throw (if v.isNull then .nullReference else .thrown v)
  | .monitorEnter | .monitorExit => do
    let (v, f) ← f.pop
    if v.isNull then throw .nullReference
    return (.proceed, f, w)
  | .leave none => return (.leave none, f, w)
  | .leave (some _) => do
    let (v, f) ← f.pop
    return (.leave (some v), f, w)

end ValueFrame

end Resumable
