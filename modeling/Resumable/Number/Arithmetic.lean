import Resumable.Number.Binary

/-!
# Floating-point arithmetic

Every finite number is a whole number of units, the unit being the smallest positive number of the
format.  So sums, products, quotients and remainders are first computed exactly on whole numbers of
units, and then rounded once, to the nearest number and of two equally near ones to the even one.

Words of one sign are in the order of the numbers they stand for, so counting up from a rounded
significand by exponents gives the rounded word, whether or not it's subnormal.
-/

namespace Resumable

/-- The whole number nearest to a quotient, the even one if two are equally near. -/
def nearestWhole (numerator denominator : Nat) : Nat :=
  let below := numerator / denominator
  let excess := numerator % denominator
  if 2 * excess < denominator ∨ (2 * excess = denominator ∧ below % 2 = 0) then below
  else below + 1

namespace BinaryFormat

/-- The sign bit alone, or nothing. -/
def signWord (f : BinaryFormat) (negative : Bool) : Nat :=
  if negative then 1 <<< (f.fractionBits + f.exponentBits) else 0

/-- An infinity. -/
def infinityWord (f : BinaryFormat) (negative : Bool) : Nat :=
  f.signWord negative + (f.topExponent <<< f.fractionBits)

/-- A NaN. -/
def nanWord (f : BinaryFormat) : Nat :=
  (f.topExponent <<< f.fractionBits) + (1 <<< (f.fractionBits - 1))

/-- The word with its sign bit changed. -/
def negate (f : BinaryFormat) (word : Nat) : Nat :=
  word ^^^ f.signWord true

/-- The number of units that make one. -/
def unitsOfOne (f : BinaryFormat) : Nat := 1 <<< (-f.unitExponent).toNat

/-- The number of units in `significand · 2 ^ exponent`. -/
def units (f : BinaryFormat) (significand : Nat) (exponent : Int) : Nat :=
  significand <<< (exponent - f.unitExponent).toNat

/-- The number of units, with a sign. -/
def signedUnits (f : BinaryFormat) (negative : Bool) (significand : Nat) (exponent : Int) : Int :=
  if negative then -(f.units significand exponent : Int) else f.units significand exponent

/-- The word nearest to the given quotient of units.  What is too large becomes an infinity. -/
def nearest (f : BinaryFormat) (negative : Bool) (numerator denominator : Nat) : Nat :=
  let shift := (numerator / denominator).log2 - f.fractionBits
  let significand := nearestWhole numerator (denominator <<< shift)
  f.signWord negative +
    min ((shift <<< f.fractionBits) + significand) (f.topExponent <<< f.fractionBits)

/-- The sum.  Two zeros that differ in their signs, and two numbers that cancel out, sum up to the
positive zero. -/
def add (f : BinaryFormat) (a b : Nat) : Nat :=
  match f.decode a, f.decode b with
  | .finite s m p, .finite t n q =>
    let sum := f.signedUnits s m p + f.signedUnits t n q
    if sum = 0 then f.signWord (s && t) else f.nearest (sum < 0) sum.natAbs 1
  | .infinite s, .infinite t => if s = t then a else f.nanWord
  | .infinite _, .finite .. => a
  | .finite .., .infinite _ => b
  | _, _ => f.nanWord

/-- The difference. -/
def subtract (f : BinaryFormat) (a b : Nat) : Nat := f.add a (f.negate b)

/-- The product. -/
def multiply (f : BinaryFormat) (a b : Nat) : Nat :=
  match f.decode a, f.decode b with
  | .finite s m p, .finite t n q => f.nearest (s != t) (f.units m p * f.units n q) f.unitsOfOne
  | .infinite s, .infinite t => f.infinityWord (s != t)
  | .infinite s, .finite t m _ | .finite t m _, .infinite s =>
    if m = 0 then f.nanWord else f.infinityWord (s != t)
  | _, _ => f.nanWord

/-- The quotient. -/
def divide (f : BinaryFormat) (a b : Nat) : Nat :=
  match f.decode a, f.decode b with
  | .finite s m p, .finite t n q =>
    if n ≠ 0 then f.nearest (s != t) (f.units m p * f.unitsOfOne) (f.units n q)
    else if m ≠ 0 then f.infinityWord (s != t)
    else f.nanWord
  | .infinite s, .finite t .. => f.infinityWord (s != t)
  | .finite s .., .infinite t => f.signWord (s != t)
  | _, _ => f.nanWord

/-- The remainder of a division that rounds its quotient toward zero.  It has the dividend's sign,
and there's none if the dividend is infinite or the divisor zero. -/
def remainder (f : BinaryFormat) (a b : Nat) : Nat :=
  match f.decode a, f.decode b with
  | .finite s m p, .finite _ n q =>
    if n = 0 then f.nanWord else f.nearest s (f.units m p % f.units n q) 1
  | .finite .., .infinite _ => a
  | _, _ => f.nanWord

/-- A whole number that is in the order of all numbers, infinities included, and the same for both
zeros; there's none for a NaN. -/
def rank? (f : BinaryFormat) (word : Nat) : Option Int :=
  match f.decode word with
  | .nan => none
  | _ =>
    let magnitude : Int := (word % (1 <<< (f.fractionBits + f.exponentBits)) : Nat)
    some (if f.isNegative word then -magnitude else magnitude)

/-- Compares two numbers, unless one is a NaN. -/
def compare? (f : BinaryFormat) (a b : Nat) : Option Ordering :=
  match f.rank? a, f.rank? b with
  | some x, some y => some (compare x y)
  | _, _ => none

/-- The word nearest to a whole number. -/
def ofInt (f : BinaryFormat) (n : Int) : Nat :=
  f.nearest (n < 0) (n.natAbs * f.unitsOfOne) 1

/-- The whole number next to the word's number on the way to zero, or the end of the range from
`low` to `high` that's nearest to it.  A NaN gives zero. -/
def toInt (f : BinaryFormat) (low high : Int) (word : Nat) : Int :=
  match f.decode word with
  | .nan => 0
  | .infinite negative => if negative then low else high
  | .finite negative m p =>
    max low (min high ((f.signedUnits negative m p).tdiv f.unitsOfOne))

/-- The word of the other format that's nearest to the word's number. -/
def convert (f target : BinaryFormat) (word : Nat) : Nat :=
  match f.decode word with
  | .nan => target.nanWord
  | .infinite negative => target.infinityWord negative
  | .finite negative m p => target.nearest negative (f.units m p * target.unitsOfOne) f.unitsOfOne

end BinaryFormat

end Resumable
