import Resumable.Machine.Error
import Resumable.Number.Arithmetic

/-!
# Arithmetic of the machine

Ints and longs wrap around, and shifts take their distance modulo the number of bits.  Division
rounds toward zero, and dividing by zero is an error.  Floats and doubles round to nearest, and
conversions to whole numbers stop at the ends of the range.
-/

namespace Resumable

namespace BinaryOp

/-- The operation on ints. -/
def onInts (op : BinaryOp) (a b : Int32) : Except MachineError Int32 :=
  match op with
  | add => .ok (a + b)
  | subtract => .ok (a - b)
  | multiply => .ok (a * b)
  | divide => if b = 0 then .error .divisionByZero else .ok (a / b)
  | remainder => if b = 0 then .error .divisionByZero else .ok (a % b)
  | shiftLeft => .ok (a <<< b)
  | shiftRight => .ok (a >>> b)
  | shiftRightUnsigned => .ok (a.toUInt32 >>> b.toUInt32).toInt32
  | and => .ok (a &&& b)
  | or => .ok (a ||| b)
  | xor => .ok (a ^^^ b)

/-- The operation on longs, a shift's distance being one too. -/
def onLongs (op : BinaryOp) (a b : Int64) : Except MachineError Int64 :=
  match op with
  | add => .ok (a + b)
  | subtract => .ok (a - b)
  | multiply => .ok (a * b)
  | divide => if b = 0 then .error .divisionByZero else .ok (a / b)
  | remainder => if b = 0 then .error .divisionByZero else .ok (a % b)
  | shiftLeft => .ok (a <<< b)
  | shiftRight => .ok (a >>> b)
  | shiftRightUnsigned => .ok (a.toUInt64 >>> b.toUInt64).toInt64
  | and => .ok (a &&& b)
  | or => .ok (a ||| b)
  | xor => .ok (a ^^^ b)

/-- The operation on the words of a floating-point format. -/
def onWords? (op : BinaryOp) (f : BinaryFormat) (a b : Nat) : Option Nat :=
  match op with
  | add => some (f.add a b)
  | subtract => some (f.subtract a b)
  | multiply => some (f.multiply a b)
  | divide => some (f.divide a b)
  | remainder => some (f.remainder a b)
  | _ => none

/-- The operation on two values, which have to be of the kind, but for a shift's distance, which is
always an int. -/
def perform (op : BinaryOp) (kind : NumericKind) (left right : Value) :
    Except MachineError Value :=
  let mismatch := Except.error (.misuse (.cannotCompute op kind left right))
  match kind, left, right with
  | .int, .int a, .int b => Value.int <$> op.onInts a b
  | .long, .long a, .int b => if op.isShift then Value.long <$> op.onLongs a b.toInt64 else mismatch
  | .long, .long a, .long b => if op.isShift then mismatch else Value.long <$> op.onLongs a b
  | .float, .float a, .float b =>
    match op.onWords? .single a.toNat b.toNat with
    | some word => .ok (.float (UInt32.ofNat word))
    | none => mismatch
  | .double, .double a, .double b =>
    match op.onWords? .double a.toNat b.toNat with
    | some word => .ok (.double (UInt64.ofNat word))
    | none => mismatch
  | _, _, _ => mismatch

end BinaryOp

namespace Value

/-- The negated value.  Negating a floating-point number changes its sign bit and nothing else. -/
def negate : Value → Except MachineError Value
  | int n => .ok (int (-n))
  | long n => .ok (long (-n))
  | float word => .ok (float (UInt32.ofNat (BinaryFormat.single.negate word.toNat)))
  | double word => .ok (double (UInt64.ofNat (BinaryFormat.double.negate word.toNat)))
  | v => .error (.misuse (.cannotNegate v))

/-- The value of a kind that's made from a whole number. -/
def ofInt (n : Int) : NumericKind → Value
  | .int => int (Int32.ofInt n)
  | .long => long (Int64.ofInt n)
  | .float => float (UInt32.ofNat (BinaryFormat.single.ofInt n))
  | .double => double (UInt64.ofNat (BinaryFormat.double.ofInt n))

/-- The value of a kind that's made from the word of a floating-point number.  The number's own kind
keeps the word. -/
def ofWord (f : BinaryFormat) (word : Nat) : NumericKind → Value
  | .int => int (Int32.ofInt (f.toInt Int32.minValue.toInt Int32.maxValue.toInt word))
  | .long => long (Int64.ofInt (f.toInt Int64.minValue.toInt Int64.maxValue.toInt word))
  | .float =>
    float (UInt32.ofNat (if f = .single then word else f.convert .single word))
  | .double =>
    double (UInt64.ofNat (if f = .double then word else f.convert .double word))

/-- The value as one of another kind. -/
def convert (v : Value) (target : NumericKind) : Except MachineError Value :=
  match v with
  | int n => .ok (ofInt n.toInt target)
  | long n => .ok (ofInt n.toInt target)
  | float word => .ok (ofWord .single word.toNat target)
  | double word => .ok (ofWord .double word.toNat target)
  | v => .error (.misuse (.cannotConvert v target))

/-- How two values of one kind compare; a NaN compares with nothing. -/
def compare? : Value → Value → Except MachineError (Option Ordering)
  | int a, int b => .ok (some (Ord.compare a.toInt b.toInt))
  | long a, long b => .ok (some (Ord.compare a.toInt b.toInt))
  | float a, float b => .ok (BinaryFormat.single.compare? a.toNat b.toNat)
  | double a, double b => .ok (BinaryFormat.double.compare? a.toNat b.toNat)
  | a, b => .error (.misuse (.cannotCompare a b))

/-- The int that stands for a comparison's outcome. -/
def ofOrdering (nanIsGreater : Bool) : Option Ordering → Value
  | some .lt => int (-1)
  | some .eq => int 0
  | some .gt => int 1
  | none => int (if nanIsGreater then 1 else -1)

end Value

end Resumable
