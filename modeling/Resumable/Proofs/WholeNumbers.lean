import Mathlib.Data.Int.Bitwise
import Resumable.Proofs.Execution

/-!
# Arithmetic on whole numbers

Ints and longs stand for the whole numbers of 32 and 64 bits, signed in two's complement.  What the
machine computes on them is given here in terms of those numbers.  Both kinds go through the same
operations on words, so what these come to is proved once, for words of any width.
-/

namespace Resumable

/-- The number of bits of the values of the kind. -/
def NumericKind.width : NumericKind → Nat
  | int | float => 32
  | long | double => 64

/-- True if the value is of the kind, int or long, and stands for the number. -/
inductive Value.Whole : NumericKind → Value → Int → Prop
  | int (n : Int32) : Whole .int (.int n) n.toInt
  | long (n : Int64) : Whole .long (.long n) n.toInt

namespace BinaryOp

/-- True if the operation would divide by zero. -/
def DividesByZero (op : BinaryOp) (b : Int) : Prop := (op = divide ∨ op = remainder) ∧ b = 0

instance (op : BinaryOp) (b : Int) : Decidable (op.DividesByZero b) :=
  inferInstanceAs (Decidable ((op = divide ∨ op = remainder) ∧ b = 0))

/-- How far numbers of the given width are shifted. -/
def distance (width : Nat) (b : Int) : Nat := (b % width).toNat

/-- True if the operation on two numbers of the given width comes to the third one.  Sums, products,
quotients and numbers that are shifted to the left are reduced to the width.  Quotients are rounded
toward zero, and numbers that are shifted to the right are rounded down, the unsigned shift reading
its number without a sign. -/
def Computes (op : BinaryOp) (width : Nat) (a b r : Int) : Prop :=
  match op with
  | add => r = (a + b).bmod (2 ^ width)
  | subtract => r = (a - b).bmod (2 ^ width)
  | multiply => r = (a * b).bmod (2 ^ width)
  | divide => r = (a.tdiv b).bmod (2 ^ width)
  | remainder => r = a.tmod b
  | shiftLeft => r = (a * 2 ^ distance width b).bmod (2 ^ width)
  | shiftRight => r = a / 2 ^ distance width b
  | shiftRightUnsigned => r = (a % 2 ^ width / 2 ^ distance width b).bmod (2 ^ width)
  | and => ∀ k, r.testBit k = (a.testBit k && b.testBit k)
  | or => ∀ k, r.testBit k = (a.testBit k || b.testBit k)
  | xor => ∀ k, r.testBit k = (a.testBit k ^^ b.testBit k)

/-- True if the outcome is what the operation on two numbers of the kind has to come to. -/
def Yields (op : BinaryOp) (kind : NumericKind) (a b : Int) (outcome : Except MachineError Value) :
    Prop :=
  if op.DividesByZero b then outcome = .error .divisionByZero
  else ∃ v r, outcome = .ok v ∧ v.Whole kind r ∧ op.Computes kind.width a b r

/-- The operation on words, which divides by zero without an error. -/
def onBits {w : Nat} (op : BinaryOp) (a b : BitVec w) : BitVec w :=
  match op with
  | add => a + b
  | subtract => a - b
  | multiply => a * b
  | divide => a.sdiv b
  | remainder => a.srem b
  | shiftLeft => a <<< b.smod (.ofNat w w)
  | shiftRight => a.sshiftRight' (b.smod (.ofNat w w))
  | shiftRightUnsigned => a >>> (b % .ofNat w w)
  | and => a &&& b
  | or => a ||| b
  | xor => a ^^^ b

variable {w : Nat}

/-- Above the sign all bits are like it. -/
theorem testBit_toInt (x : BitVec w) (k : Nat) :
    x.toInt.testBit k = if k < w then x.getLsbD k else x.msb := by
  have hx := x.isLt
  rw [BitVec.toInt_eq_msb_cond]
  cases hmsb : x.msb with
  | false =>
      have hhigh : w ≤ k → x.toNat.testBit k = false := x.getLsbD_of_ge k
      rw [if_neg Bool.false_ne_true]
      change x.toNat.testBit k = _
      split
      · rfl
      · exact hhigh (by omega)
  | true =>
      have hneg : ((x.toNat : Int) - (2 ^ w : Nat)) = Int.negSucc (2 ^ w - (x.toNat + 1)) := by
        omega
      rw [if_pos rfl, hneg]
      change (!(2 ^ w - (x.toNat + 1)).testBit k) = _
      rw [Nat.testBit_two_pow_sub_succ hx]
      by_cases hk : k < w <;> simp [hk, BitVec.getLsbD]

/-- An operation on the bits of words is one on the bits of the numbers. -/
theorem testBit_toInt_of_bits {f : Bool → Bool → Bool} {a b r : BitVec w}
    (hlow : ∀ k, k < w → r.getLsbD k = f (a.getLsbD k) (b.getLsbD k))
    (hmsb : r.msb = f a.msb b.msb) (k : Nat) :
    r.toInt.testBit k = f (a.toInt.testBit k) (b.toInt.testBit k) := by
  simp only [testBit_toInt]
  split
  · exact hlow k ‹_›
  · exact hmsb

/-- The number that's read without a sign. -/
theorem toNat_eq_toInt_emod (x : BitVec w) : (x.toNat : Int) = x.toInt % 2 ^ w := by
  have hx : (x.toNat : Int) < (2 ^ w : Nat) := Int.ofNat_lt.2 x.isLt
  calc (x.toNat : Int)
    _ = x.toNat % (2 ^ w : Nat) := (Int.emod_eq_of_lt (Int.natCast_nonneg _) hx).symm
    _ = (x.toNat : Int).bmod (2 ^ w) % (2 ^ w : Nat) := Int.bmod_emod.symm
    _ = x.toInt % 2 ^ w := by rw [← BitVec.toInt_eq_toNat_bmod, Nat.cast_pow]; rfl

/-- The distance of a signed shift. -/
theorem toNat_smod_width (hpos : 0 < w) (hwide : 2 * w < 2 ^ w) (b : BitVec w) :
    (b.smod (.ofNat w w)).toNat = distance w b.toInt := by
  have hwidth : (BitVec.ofNat w w).toInt = w := by
    rw [BitVec.toInt_eq_toNat_cond, BitVec.toNat_ofNat, Nat.mod_eq_of_lt (by omega), if_pos hwide]
  have hmod : (b.smod (.ofNat w w)).toInt = b.toInt % w := by
    rw [BitVec.toInt_smod, hwidth, Int.fmod_eq_emod_of_nonneg _ (Int.natCast_nonneg w)]
  have hnonneg : 0 ≤ b.toInt % w := Int.emod_nonneg _ (by omega)
  have hmsb : (b.smod (.ofNat w w)).msb = false := by
    rw [BitVec.msb_eq_toInt, hmod]
    exact decide_eq_false (by omega)
  rw [distance, ← hmod, BitVec.toInt_eq_toNat_of_msb hmsb]
  exact (Int.toNat_natCast _).symm

/-- The distance of an unsigned shift. -/
theorem toNat_mod_width (hwide : 2 * w < 2 ^ w) (hdvd : w ∣ 2 ^ w) (b : BitVec w) :
    (b % .ofNat w w).toNat = distance w b.toInt := by
  have hmod : (b.toNat : Int) % w = b.toInt % w := by
    rw [toNat_eq_toInt_emod]
    exact Int.emod_emod_of_dvd _ (by exact_mod_cast hdvd)
  rw [BitVec.toNat_umod, BitVec.toNat_ofNat, Nat.mod_eq_of_lt (a := w) (by omega), distance, ← hmod]
  exact (Int.toNat_natCast _).symm

theorem toInt_shiftLeft (x : BitVec w) (d : Nat) :
    (x <<< d).toInt = (x.toInt * 2 ^ d).bmod (2 ^ w) := by
  rw [BitVec.toInt_shiftLeft, Nat.shiftLeft_eq, Nat.cast_mul, BitVec.toInt_eq_toNat_bmod x,
    Int.bmod_mul_bmod, Nat.cast_pow, Nat.cast_ofNat]

theorem toInt_sshiftRight (x : BitVec w) (d : Nat) : (x.sshiftRight d).toInt = x.toInt / 2 ^ d := by
  rw [BitVec.toInt_sshiftRight, Int.shiftRight_eq_div_pow, Nat.cast_pow, Nat.cast_ofNat]

theorem toInt_ushiftRight (x : BitVec w) (d : Nat) :
    (x >>> d).toInt = (x.toInt % 2 ^ w / 2 ^ d).bmod (2 ^ w) := by
  rw [BitVec.toInt_eq_toNat_bmod, BitVec.toNat_ushiftRight, Nat.shiftRight_eq_div_pow,
    Int.natCast_ediv, toNat_eq_toInt_emod, Nat.cast_pow, Nat.cast_ofNat]

/-- The operations on words compute what they have to. -/
theorem onBits_computes (hw : w = 32 ∨ w = 64) (op : BinaryOp) (a b : BitVec w) :
    op.Computes w a.toInt b.toInt (op.onBits a b).toInt := by
  have hpos : 0 < w := by omega
  have hwide : 2 * w < 2 ^ w := by rcases hw with rfl | rfl <;> decide
  have hdvd : w ∣ 2 ^ w := by rcases hw with rfl | rfl <;> decide
  cases op with
  | add => exact BitVec.toInt_add a b
  | subtract => exact BitVec.toInt_sub
  | multiply => exact BitVec.toInt_mul a b
  | divide => exact BitVec.toInt_sdiv a b
  | remainder => exact BitVec.toInt_srem a b
  | shiftLeft =>
      change (a <<< (b.smod (.ofNat w w)).toNat).toInt = _
      rw [toInt_shiftLeft, toNat_smod_width hpos hwide]
  | shiftRight =>
      change (a.sshiftRight (b.smod (.ofNat w w)).toNat).toInt = _
      rw [toInt_sshiftRight, toNat_smod_width hpos hwide]
  | shiftRightUnsigned =>
      change (a >>> (b % .ofNat w w).toNat).toInt = _
      rw [toInt_ushiftRight, toNat_mod_width hwide hdvd]
  | and => exact testBit_toInt_of_bits (fun _ _ => BitVec.getLsbD_and) BitVec.msb_and
  | or => exact testBit_toInt_of_bits (fun _ _ => BitVec.getLsbD_or) BitVec.msb_or
  | xor => exact testBit_toInt_of_bits (fun _ _ => BitVec.getLsbD_xor) BitVec.msb_xor

theorem onInts_eq (op : BinaryOp) (a b : Int32) : op.onInts a b =
    if op.DividesByZero b.toInt then .error .divisionByZero
    else .ok (.ofBitVec (op.onBits a.toBitVec b.toBitVec)) := by
  have hzero : b = 0 ↔ b.toInt = 0 := Int32.toInt_inj.symm
  cases op <;> simp [onInts, onBits, DividesByZero, hzero] <;> rfl

theorem onLongs_eq (op : BinaryOp) (a b : Int64) : op.onLongs a b =
    if op.DividesByZero b.toInt then .error .divisionByZero
    else .ok (.ofBitVec (op.onBits a.toBitVec b.toBitVec)) := by
  have hzero : b = 0 ↔ b.toInt = 0 := Int64.toInt_inj.symm
  cases op <;> simp [onLongs, onBits, DividesByZero, hzero] <;> rfl

/-- On ints and longs the machine computes what it has to. -/
theorem perform_yields {op : BinaryOp} {kind : NumericKind} {left right : Value} {a b : Int}
    (hleft : left.Whole kind a) (hright : right.Whole (if op.isShift then .int else kind) b) :
    op.Yields kind a b (op.perform kind left right) := by
  cases hleft with
  | int m =>
      obtain ⟨n⟩ : right.Whole .int b := by split at hright <;> exact hright
      rw [perform, onInts_eq, Yields]
      split
      · rfl
      · exact ⟨_, _, rfl, .int _, onBits_computes (.inl rfl) ..⟩
  | long m =>
      cases hshift : op.isShift with
      | true =>
          rw [hshift, if_pos rfl] at hright
          obtain ⟨n⟩ := hright
          rw [perform, hshift, if_pos rfl, onLongs_eq, Int32.toInt_toInt64, Yields]
          split
          · rfl
          · refine ⟨_, _, rfl, .long _, ?_⟩
            rw [← Int32.toInt_toInt64]
            exact onBits_computes (.inr rfl) ..
      | false =>
          rw [hshift, if_neg Bool.false_ne_true] at hright
          obtain ⟨n⟩ := hright
          rw [perform, hshift, if_neg Bool.false_ne_true, onLongs_eq, Yields]
          split
          · rfl
          · exact ⟨_, _, rfl, .long _, onBits_computes (.inr rfl) ..⟩

end BinaryOp

namespace Value

variable {kind target : NumericKind} {v : Value} {n : Int}

theorem Whole.bmod (h : v.Whole kind n) : n.bmod (2 ^ kind.width) = n := by
  cases h with
  | int n => exact BitVec.toInt_bmod_cancel n.toBitVec
  | long n => exact BitVec.toInt_bmod_cancel n.toBitVec

theorem whole_ofInt (hkind : kind = .int ∨ kind = .long) (n : Int) :
    (ofInt n kind).Whole kind (n.bmod (2 ^ kind.width)) := by
  rcases hkind with rfl | rfl
  · exact Int32.toInt_ofInt (n := n) ▸ .int (Int32.ofInt n)
  · exact Int64.toInt_ofInt (n := n) ▸ .long (Int64.ofInt n)

theorem Whole.negate (h : v.Whole kind n) :
    ∃ u, v.negate = .ok u ∧ u.Whole kind ((-n).bmod (2 ^ kind.width)) := by
  cases h with
  | int n => exact ⟨_, rfl, Int32.toInt_neg n ▸ .int (-n)⟩
  | long n => exact ⟨_, rfl, Int64.toInt_neg n ▸ .long (-n)⟩

theorem Whole.convert (h : v.Whole kind n) (htarget : target = .int ∨ target = .long) :
    ∃ u, v.convert target = .ok u ∧ u.Whole target (n.bmod (2 ^ target.width)) := by
  cases h <;> exact ⟨_, rfl, whole_ofInt htarget _⟩

/-- Ints are in the range of longs. -/
theorem Whole.bmod_long (h : v.Whole kind n) : n.bmod (2 ^ NumericKind.long.width) = n := by
  cases h with
  | int n => exact Int32.toInt_toInt64 n ▸ (Whole.long n.toInt64).bmod
  | long n => exact (Whole.long n).bmod

end Value

/-- Quotient and remainder make up the dividend, up to the width.  The remainder is smaller than the
divisor, and it's zero or has the dividend's sign. -/
theorem BinaryOp.division_law {kind : NumericKind} {left right : Value} {a b : Int}
    (hleft : left.Whole kind a) (hright : right.Whole kind b) (hb : b ≠ 0) :
    ∃ u v q r, divide.perform kind left right = .ok u ∧ u.Whole kind q ∧
      remainder.perform kind left right = .ok v ∧ v.Whole kind r ∧
      (b * q + r).bmod (2 ^ kind.width) = a ∧ r.natAbs < b.natAbs ∧ (r = 0 ∨ r.sign = a.sign) := by
  have hdivide : divide.Yields kind a b (divide.perform kind left right) :=
    perform_yields hleft hright
  have hremainder : remainder.Yields kind a b (remainder.perform kind left right) :=
    perform_yields hleft hright
  have hdefined (op : BinaryOp) : ¬ op.DividesByZero b := fun h => hb h.2
  rw [Yields, if_neg (hdefined _)] at hdivide hremainder
  obtain ⟨u, q, hu, huq, hq⟩ := hdivide
  obtain ⟨v, r, hv, hvr, hr⟩ := hremainder
  obtain rfl : q = (a.tdiv b).bmod (2 ^ kind.width) := hq
  obtain rfl : r = a.tmod b := hr
  refine ⟨u, v, _, _, hu, huq, hv, hvr, ?_, ?_, ?_⟩
  · rw [← Int.bmod_add_bmod, Int.mul_bmod_bmod, Int.bmod_add_bmod, Int.mul_tdiv_add_tmod]
    exact hleft.bmod
  · rw [Int.natAbs_tmod]
    exact Nat.mod_lt _ (Int.natAbs_pos.2 hb)
  · by_cases hdvd : b ∣ a
    · exact .inl (Int.tmod_eq_zero_of_dvd hdvd)
    · exact .inr ((Int.sign_tmod a b).trans (if_neg hdvd))

namespace ValueFrame

variable {w : World} {locals stack : List Value} {v : Value}

theorem execute_binary (op : BinaryOp) (kind : NumericKind) (left right : Value) :
    execute w ⟨locals, right :: left :: stack⟩ (.binary op kind) =
      (op.perform kind left right).map fun v => (.proceed, ⟨locals, v :: stack⟩, w) := by
  simp only [execute, compute, pop, Except.ok_bind]
  cases op.perform kind left right <;> rfl

theorem execute_negate (kind : NumericKind) (v : Value) :
    execute w ⟨locals, v :: stack⟩ (.negate kind) =
      v.negate.map fun v => (.proceed, ⟨locals, v :: stack⟩, w) := by
  simp only [execute, compute, pop, Except.ok_bind]
  cases v.negate <;> rfl

theorem execute_convert (source target : NumericKind) (v : Value) :
    execute w ⟨locals, v :: stack⟩ (.convert source target) =
      (v.convert target).map fun v => (.proceed, ⟨locals, v :: stack⟩, w) := by
  simp only [execute, compute, pop, Except.ok_bind]
  cases v.convert target <;> rfl

theorem execute_increment {index : UInt16} {n : Int32} (delta : Int16)
    (h : locals[index.toNat]? = some (.int n)) :
    execute w ⟨locals, stack⟩ (.increment index delta) =
      .ok (.proceed, ⟨locals.set index.toNat (.int (n + delta.toInt32)), stack⟩, w) := by
  obtain ⟨hlt, -⟩ := List.getElem?_eq_some_iff.1 h
  simp only [execute, load, h, Except.ok_bind, store, if_pos hlt]
  rfl

end ValueFrame

/-- The machine computes with ints and longs as with whole numbers that are reduced to 32 and 64
bits.  The operations on two numbers fail for divisors of zero only.  Quotient and remainder belong
together.  Negating and incrementing wrap around.  An int that's made a long stays the same number,
and a long that's made an int is reduced. -/
theorem whole_arithmetic :
    (∀ (op : BinaryOp) kind left right a b, left.Whole kind a →
      right.Whole (if op.isShift then .int else kind) b →
      op.Yields kind a b (op.perform kind left right) ∧
      ∀ w locals stack, ValueFrame.execute w ⟨locals, right :: left :: stack⟩ (.binary op kind) =
        (op.perform kind left right).map fun v => (.proceed, ⟨locals, v :: stack⟩, w)) ∧
    (∀ (kind : NumericKind) left right a b, left.Whole kind a → right.Whole kind b → b ≠ 0 →
      ∃ u v q r, BinaryOp.divide.perform kind left right = .ok u ∧ u.Whole kind q ∧
        BinaryOp.remainder.perform kind left right = .ok v ∧ v.Whole kind r ∧
        (b * q + r).bmod (2 ^ kind.width) = a ∧ r.natAbs < b.natAbs ∧ (r = 0 ∨ r.sign = a.sign)) ∧
    (∀ (kind : NumericKind) v n, v.Whole kind n →
      ∃ u, u.Whole kind ((-n).bmod (2 ^ kind.width)) ∧
        ∀ w locals stack stated, ValueFrame.execute w ⟨locals, v :: stack⟩ (.negate stated) =
          .ok (.proceed, ⟨locals, u :: stack⟩, w)) ∧
    (∀ v n (delta : Int16), v.Whole .int n →
      ∃ u, u.Whole .int ((n + delta.toInt).bmod (2 ^ 32)) ∧
        ∀ w locals stack (index : UInt16), locals[index.toNat]? = some v →
          ValueFrame.execute w ⟨locals, stack⟩ (.increment index delta) =
            .ok (.proceed, ⟨locals.set index.toNat u, stack⟩, w)) ∧
    ∀ (kind : NumericKind) v n, v.Whole kind n →
      ∃ u x, u.Whole .int (n.bmod (2 ^ 32)) ∧ x.Whole .long n ∧
        v.convert .int = .ok u ∧ v.convert .long = .ok x ∧
        ∀ w locals stack stated target,
          ValueFrame.execute w ⟨locals, v :: stack⟩ (.convert stated target) =
            (v.convert target).map fun v => (.proceed, ⟨locals, v :: stack⟩, w) := by
  refine ⟨fun op kind left right a b hleft hright => ⟨BinaryOp.perform_yields hleft hright, ?_⟩,
    fun kind left right a b => BinaryOp.division_law, ?_, ?_, ?_⟩
  · exact fun w locals stack => ValueFrame.execute_binary ..
  · intro kind v n hv
    obtain ⟨u, hu, hwhole⟩ := hv.negate
    exact ⟨u, hwhole, fun w locals stack stated => by rw [ValueFrame.execute_negate, hu]; rfl⟩
  · intro v n delta hv
    obtain ⟨n⟩ := hv
    have hsum : (n + delta.toInt32).toInt = (n.toInt + delta.toInt).bmod (2 ^ 32) := by
      rw [Int32.toInt_add, Int16.toInt_toInt32]
    exact ⟨_, hsum ▸ .int (n + delta.toInt32),
      fun w locals stack index h => ValueFrame.execute_increment delta h⟩
  · intro kind v n hv
    obtain ⟨u, hu, hreduced⟩ := hv.convert (.inl rfl)
    obtain ⟨x, hx, hkept⟩ := hv.convert (.inr rfl)
    rw [hv.bmod_long] at hkept
    exact ⟨u, x, hreduced, hkept, hu, hx,
      fun w locals stack stated target => ValueFrame.execute_convert ..⟩

/-- The least int divided by minus one is the least int again, and there's no remainder.  A shift by
minus one goes as far as there are places.  The least int is its own opposite, and the int before it
is the greatest one. -/
theorem whole_arithmetic_edges :
    (∃ u, BinaryOp.divide.perform .int (.int Int32.minValue) (.int (-1)) = .ok u ∧
      u.Whole .int (-2147483648)) ∧
    (∃ v r, BinaryOp.remainder.perform .int (.int Int32.minValue) (.int (-1)) = .ok v ∧
      v.Whole .int r ∧ r.natAbs < 1) ∧
    (∃ u, BinaryOp.shiftRight.perform .long (.long (-7)) (.int (-1)) = .ok u ∧ u.Whole .long (-1)) ∧
    (∃ u, ValueFrame.execute ⟨#[], #[], []⟩ ⟨[], [.int Int32.minValue]⟩ (.negate .int) =
      .ok (.proceed, ⟨[], [u]⟩, ⟨#[], #[], []⟩) ∧ u.Whole .int (-2147483648)) ∧
    (∃ u, ValueFrame.execute ⟨#[], #[], []⟩ ⟨[.int Int32.minValue], []⟩ (.increment 0 (-1)) =
      .ok (.proceed, ⟨[u], []⟩, ⟨#[], #[], []⟩) ∧ u.Whole .int 2147483647) ∧
    ∃ u, (Value.long 4294967295).convert .int = .ok u ∧ u.Whole .int (-1) := by
  obtain ⟨hperform, hdivision, hnegate, hincrement, hconvert⟩ := whole_arithmetic
  have hleast : (Value.int Int32.minValue).Whole .int (-2147483648) := .int _
  have hone : (Value.int (-1)).Whole .int (-1) := .int _
  have hlong : (Value.long 4294967295).Whole .long 4294967295 := .long _
  refine ⟨?_, ?_, ?_, ?_, ?_, ?_⟩
  · have h := (hperform .divide _ _ _ _ _ hleast hone).1
    rw [BinaryOp.Yields, if_neg (by decide)] at h
    obtain ⟨u, r, hu, hwhole, rfl⟩ := h
    exact ⟨u, hu, hwhole⟩
  · obtain ⟨-, v, -, r, -, -, hv, hwhole, -, hlt, -⟩ := hdivision _ _ _ _ _ hleast hone (by decide)
    exact ⟨v, r, hv, hwhole, hlt⟩
  · have h := (hperform .shiftRight _ _ _ _ _ (.long (-7)) hone).1
    rw [BinaryOp.Yields, if_neg (by decide)] at h
    obtain ⟨u, r, hu, hwhole, rfl⟩ := h
    exact ⟨u, hu, hwhole⟩
  · obtain ⟨u, hwhole, hu⟩ := hnegate _ _ _ hleast
    exact ⟨u, hu _ _ _ _, hwhole⟩
  · obtain ⟨u, hwhole, hu⟩ := hincrement _ _ (-1) hleast
    exact ⟨u, hu _ [.int Int32.minValue] _ 0 rfl, hwhole⟩
  · obtain ⟨u, x, hwhole, -, hu, -⟩ := hconvert _ _ _ hlong
    exact ⟨u, hu, hwhole⟩

end Resumable
