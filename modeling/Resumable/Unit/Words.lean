import Resumable.Unit.Decoding

/-!
# Numbers as words

The format's numbers have at most 32 bits.  Here they're written from a word of that width, whose
lowest seven bits go first, and read into one, in which each group of seven bits is shifted to its
place.  What's shifted out of a word is lost without notice, so a group that has no room left has to
be found before it's shifted.  `Encoding.varInt` and `Decoder.varInt` say the same by division and
multiplication, where nothing can be lost.
-/

namespace Resumable

/-- The word in groups of seven bits, the lowest group first; every byte but the last has its top bit
set. -/
def Encoding.word (n : UInt32) : Bytes :=
  let low := (n &&& 0x7F).toUInt8
  let rest := n >>> 7
  if rest = 0 then [low] else (low ||| 0x80) :: word rest
termination_by n.toNat
decreasing_by
  rename_i h
  have hpos : (n >>> 7).toNat ≠ 0 := fun hzero => h (UInt32.toNat_inj.1 hzero)
  rw [UInt32.toNat_shiftRight, Nat.shiftRight_eq_div_pow] at hpos ⊢
  simp only [UInt32.reduceToNat, Nat.reduceMod] at hpos ⊢
  omega

namespace Decoder

/-- Reads groups of seven bits into a word, whose next group has its place `shift` bits from the low
end. -/
def wordFrom (start : Nat) (read : UInt32) (shift : Nat) : Decoder UInt32 := do
  let b ← byte
  if h : 28 < shift ∨ shift = 28 ∧ b &&& 0x70 ≠ 0 then throw (.valueTooLarge start)
  else
    let read := read ||| (b.toUInt32 &&& 0x7F) <<< UInt32.ofNat shift
    if b &&& 0x80 = 0 then return read else wordFrom start read (shift + 7)
termination_by 35 - shift

/-- Reads a number into a word. -/
def word : Decoder UInt32 := do wordFrom (← position) 0 0

end Decoder

end Resumable
