/-!
# Digits and columns

Numbers in listings are decimal, except for access flags, opcodes and escaped characters, which
are lower-case hexadecimal.  Listings line their columns up by filling short fields with spaces.
-/

namespace Resumable.Text

/-- The digits of `n` in base sixteen, without leading zeros. -/
def hexDigits (n : Nat) : List Char := Nat.toDigits 16 n

/-- The text of `n` in base sixteen. -/
def hex (n : Nat) : String := String.ofList (hexDigits n)

/-- The text of `n` in base sixteen, with leading zeros up to `width` digits. -/
def hexPadded (width n : Nat) : String :=
  String.ofList (List.replicate (width - (hexDigits n).length) '0' ++ hexDigits n)

/-- `s` followed by as many spaces as it lacks of `width` characters. -/
def padRight (width : Nat) (s : String) : String :=
  s ++ String.ofList (List.replicate (width - s.length) ' ')

/-- The texts with `separator` between neighbours. -/
def join (separator : String) : List String → String
  | [] => ""
  | [s] => s
  | s :: t :: rest => s ++ separator ++ join separator (t :: rest)

end Resumable.Text
