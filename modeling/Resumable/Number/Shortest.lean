import Resumable.Number.Binary

/-!
# Shortest decimals

A floating-point number is written with the fewest decimal digits that read back as the same
number.  The numbers that read back as `m · 2 ^ q` form an interval around it, whose ends belong to
it exactly if `m` is even.  The grid of multiples of `10 ^ k` is refined until one of the number's
two neighbours on it lies in the interval; of two such neighbours the nearer one is taken, and the
larger one if they are equally near.
-/

namespace Resumable

/-- The number `digits · 10 ^ exponent`. -/
structure Decimal where
  digits : Nat
  exponent : Int

/-- A positive rational number with an interval of accepted numbers around it, over one
denominator. -/
structure AcceptedInterval where
  value : Nat
  low : Nat
  high : Nat
  denominator : Nat
  closed : Bool

namespace AcceptedInterval

/-- The numbers that read back as `significand · 2 ^ exponent`.  Below a power of two the next
smaller number is only half as far away. -/
def around (significand : Nat) (exponent : Int) (powerOfTwo : Bool) : AcceptedInterval :=
  let scale := 1 <<< (exponent - 2).toNat
  { value := 4 * significand * scale
    low := (4 * significand - (if powerOfTwo then 1 else 2)) * scale
    high := (4 * significand + 2) * scale
    denominator := 1 <<< (2 - exponent).toNat
    closed := significand % 2 = 0 }

/-- The interval measured in multiples of `10 ^ k`. -/
def inMultiplesOf (a : AcceptedInterval) (k : Int) : AcceptedInterval :=
  let up := Nat.pow 10 (-k).toNat
  { a with
    value := a.value * up
    low := a.low * up
    high := a.high * up
    denominator := a.denominator * Nat.pow 10 k.toNat }

/-- True if the whole number `n` is accepted. -/
def accepts (a : AcceptedInterval) (n : Nat) : Bool :=
  let m := n * a.denominator
  if a.closed then a.low ≤ m && m ≤ a.high else a.low < m && m < a.high

/-- The accepted one of the two whole numbers next to the value, the nearer one if both are. -/
def nearestWhole? (a : AcceptedInterval) : Option Nat :=
  let below := a.value / a.denominator
  let excess := a.value % a.denominator
  match a.accepts below, a.accepts (below + 1) with
  | true, true => some (if 2 * excess < a.denominator then below else below + 1)
  | true, false => some below
  | false, true => some (below + 1)
  | false, false => none

/-- The exponent of the value's leading decimal digit. -/
def leadingExponent (a : AcceptedInterval) : Int :=
  let estimate : Int := (Nat.toDigits 10 a.value).length - (Nat.toDigits 10 a.denominator).length
  let b := a.inMultiplesOf estimate
  if b.denominator ≤ b.value then estimate else estimate - 1

/-- The shortest accepted decimal.  Eighteen digits are always enough for a double. -/
def shortest (a : AcceptedInterval) : Decimal :=
  let first := a.leadingExponent
  let found := (List.range 18).findSome? fun (i : Nat) =>
    let k := first - (i : Int)
    (a.inMultiplesOf k).nearestWhole?.map fun n => Decimal.mk n k
  found.getD ⟨0, 0⟩

end AcceptedInterval

/-- The shortest decimal that reads back as the positive number `significand · 2 ^ exponent` of the
format. -/
def BinaryFormat.shortest (f : BinaryFormat) (significand : Nat) (exponent : Int) : Decimal :=
  (AcceptedInterval.around significand exponent (significand = 1 <<< f.fractionBits)).shortest

end Resumable
