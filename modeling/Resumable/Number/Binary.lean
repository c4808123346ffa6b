/-!
# Binary floating-point words

Floats and doubles are kept as the words that hold them, so that moving one never changes a bit.
A format says how a word is cut into a sign, an exponent and a fraction; decoding gives the number
as `significand · 2 ^ exponent`, on which exact integer arithmetic can be done.
-/

namespace Resumable

/-- The layout of a binary floating-point word: a sign bit above the exponent above the fraction. -/
structure BinaryFormat where
  fractionBits : Nat
  exponentBits : Nat
deriving DecidableEq

/-- What a floating-point word stands for. -/
inductive BinaryNumber
  | nan
  | infinite (negative : Bool)
  | finite (negative : Bool) (significand : Nat) (exponent : Int)

namespace BinaryFormat

/-- The layout of floats. -/
def single : BinaryFormat := ⟨23, 8⟩

/-- The layout of doubles. -/
def double : BinaryFormat := ⟨52, 11⟩

/-- The exponent field of infinities and NaNs. -/
def topExponent (f : BinaryFormat) : Nat := (1 <<< f.exponentBits) - 1

/-- The exponent of the smallest positive number, which is also the unit of all numbers. -/
def unitExponent (f : BinaryFormat) : Int :=
  2 - (1 <<< (f.exponentBits - 1) : Nat) - f.fractionBits

/-- The sign bit. -/
def isNegative (f : BinaryFormat) (word : Nat) : Bool :=
  (word >>> (f.fractionBits + f.exponentBits)) % 2 = 1

/-- The number that a word stands for. -/
def decode (f : BinaryFormat) (word : Nat) : BinaryNumber :=
  let negative := f.isNegative word
  let exponent := (word >>> f.fractionBits) % (1 <<< f.exponentBits)
  let fraction := word % (1 <<< f.fractionBits)
  if exponent = f.topExponent then
    if fraction = 0 then .infinite negative else .nan
  else if exponent = 0 then .finite negative fraction f.unitExponent
  else .finite negative ((1 <<< f.fractionBits) + fraction) (f.unitExponent + (exponent - 1 : Nat))

end BinaryFormat

end Resumable
