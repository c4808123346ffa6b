import Resumable.Number.Shortest

/-!
# Decimal notation

The decimal point stands inside, before or after the shortest digits, filled up with zeros, or a
number with a large exponent is written with the exponent apart.  Constants in a listing keep a
digit after the point; values in messages drop it and never use an exponent.
-/

namespace Resumable

/-- How the digits of a number are laid out. -/
structure NumberStyle where
  /-- Whole numbers end in a point and a zero. -/
  keepsPoint : Bool
  /-- The exponents of the leading digit from which on, and up to which, there's no exponent part;
  none if there never is. -/
  positionalRange : Option (Int × Int)

namespace NumberStyle

/-- The style of values in messages. -/
def plain : NumberStyle := ⟨false, none⟩

/-- The style of constants in listings. -/
def constant : NumberStyle := ⟨true, some (-4, 15)⟩

/-- True if a number whose leading digit has the given exponent is written without an exponent. -/
def isPositional (style : NumberStyle) (leading : Int) : Bool :=
  match style.positionalRange with
  | none => true
  | some (low, high) => low ≤ leading && leading ≤ high

/-- The digits with a point after the first `point` of them, which may be negative or beyond the
digits' end. -/
def positional (style : NumberStyle) (digits : List Char) (point : Int) : List Char :=
  let zeros (n : Int) := List.replicate n.toNat '0'
  if point ≤ 0 then '0' :: '.' :: zeros (-point) ++ digits
  else if digits.length ≤ point then
    digits ++ zeros (point - digits.length) ++ (if style.keepsPoint then ['.', '0'] else [])
  else digits.take point.toNat ++ '.' :: digits.drop point.toNat

/-- The digits with a point after the first of them, and the exponent. -/
def scientific (digits : List Char) (leading : Int) : List Char :=
  let mantissa := match digits with
    | first :: second :: rest => first :: '.' :: second :: rest
    | short => short
  mantissa ++ 'e' :: (toString leading).toList

/-- The text of a positive decimal. -/
def decimal (style : NumberStyle) (d : Decimal) : List Char :=
  let all := Nat.toDigits 10 d.digits
  let digits := (all.reverse.dropWhile (· == '0')).reverse
  let point := all.length + d.exponent
  if style.isPositional (point - 1) then style.positional digits point
  else scientific digits (point - 1)

/-- The text of the number that a word stands for. -/
def text (style : NumberStyle) (f : BinaryFormat) (word : Nat) : String :=
  let sign (negative : Bool) := if negative then "-" else ""
  match f.decode word with
  | .nan => "NaN"
  | .infinite negative => sign negative ++ "inf"
  | .finite negative significand exponent =>
    sign negative ++
      if significand = 0 then (if style.keepsPoint then "0.0" else "0")
      else String.ofList (style.decimal (f.shortest significand exponent))

end NumberStyle

end Resumable
