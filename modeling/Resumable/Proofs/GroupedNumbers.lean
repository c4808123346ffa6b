import Mathlib.Algebra.GroupWithZero.Nat
import Resumable.Proofs.Truncation
import Resumable.Unit.Words

/-!
# Numbers in groups of seven bits

The bytes of a number say which number it is by their low seven bits, and where it ends by their top
bits.  `numbers_read_exactly` says that a reader takes them, from any place of any bytes, if there
are at most five of them and their sum fits a word, and what it finds wrong otherwise.  The loop over
words and the recursion over numbers come to the same.
-/

namespace Resumable

/-- The number whose groups of seven bits are in the bytes, the lowest group first. -/
def groupSum (bytes : Bytes) : Nat := (bytes.mapIdx fun i b => b.toNat % 128 * 128 ^ i).sum

/-- Each of the bytes says that another one follows. -/
def Unended (bytes : Bytes) : Prop := ∀ b ∈ bytes, 128 ≤ b.toNat

/-- The last byte, and no other one, says that none follows. -/
def Ended (bytes : Bytes) : Prop :=
  ∃ front last, bytes = front ++ [last] ∧ Unended front ∧ last.toNat < 128

theorem sum_mapIdx_of_eq_mul {α : Type} {f g : Nat → α → Nat} {k : Nat} (l : List α)
    (h : ∀ i x, f i x = k * g i x) : (l.mapIdx f).sum = k * (l.mapIdx g).sum := by
  induction l generalizing f g with
  | nil => simp
  | cons x l ih =>
      simp only [List.mapIdx_cons, List.sum_cons, Nat.mul_add]
      rw [h, ih fun i x => h (i + 1) x]

@[simp] theorem groupSum_nil : groupSum [] = 0 := rfl

@[simp] theorem groupSum_cons (b : UInt8) (bytes : Bytes) :
    groupSum (b :: bytes) = b.toNat % 128 + 128 * groupSum bytes := by
  have hshift (i : Nat) (b : UInt8) :
      b.toNat % 128 * 128 ^ (i + 1) = 128 * (b.toNat % 128 * 128 ^ i) := by
    rw [Nat.pow_succ, ← Nat.mul_assoc, Nat.mul_comm]
  rw [groupSum, List.mapIdx_cons, List.sum_cons, Nat.pow_zero, Nat.mul_one,
    sum_mapIdx_of_eq_mul bytes hshift, groupSum]

@[simp] theorem unended_nil : Unended [] := by
  intro b hb
  cases hb

@[simp] theorem unended_cons {b : UInt8} {bytes : Bytes} :
    Unended (b :: bytes) ↔ 128 ≤ b.toNat ∧ Unended bytes := List.forall_mem_cons

@[simp] theorem not_ended_nil : ¬ Ended [] := by
  intro h
  obtain ⟨front, last, h, -⟩ := h
  simp at h

/-- A number goes on behind its first byte if that byte says so, and else it's ended. -/
theorem ended_cons {b : UInt8} {bytes : Bytes} :
    Ended (b :: bytes) ↔ if b.toNat < 128 then bytes = [] else Ended bytes := by
  constructor
  · intro h
    obtain ⟨front, last, heq, hfront, hlast⟩ := h
    cases front with
    | nil =>
        obtain ⟨rfl, rfl⟩ := List.cons.inj heq
        rw [if_pos hlast]
    | cons b' front =>
        obtain ⟨rfl, rfl⟩ := List.cons.inj heq
        obtain ⟨hb, hfront⟩ := unended_cons.1 hfront
        rw [if_neg (Nat.not_lt.2 hb)]
        exact ⟨front, last, rfl, hfront, hlast⟩
  · intro h
    split at h
    · rename_i hb
      exact ⟨[], b, by rw [h]; rfl, unended_nil, hb⟩
    · rename_i hb
      obtain ⟨front, last, rfl, hfront, hlast⟩ := h
      exact ⟨b :: front, last, rfl, unended_cons.2 ⟨Nat.not_lt.1 hb, hfront⟩, hlast⟩

/-- Nothing that has bytes of a number in front of it is without an end. -/
theorem Ended.not_unended_append {front back : Bytes} (h : Ended front) : ¬ Unended (front ++ back) := by
  intro hunended
  obtain ⟨first, last, rfl, -, hlast⟩ := h
  have := hunended last (by simp)
  omega

/-- The bytes of a number are those that end where they say, and have it as their sum. -/
theorem spelled_iff {n : Nat} {bytes : Bytes} : Spelled n bytes ↔ Ended bytes ∧ groupSum bytes = n := by
  constructor
  · intro h
    induction h with
    | @last b hb =>
        rw [ended_cons, if_pos hb, groupSum_cons, groupSum_nil, Nat.mod_eq_of_lt hb]
        exact ⟨rfl, by omega⟩
    | @more b n bytes hb h ih =>
        rw [ended_cons, if_neg (Nat.not_lt.2 hb), groupSum_cons, ih.2]
        exact ⟨ih.1, rfl⟩
  · intro h
    induction bytes generalizing n with
    | nil => exact (not_ended_nil h.1).elim
    | cons b bytes ih =>
        obtain ⟨hended, rfl⟩ := h
        rw [ended_cons] at hended
        rw [groupSum_cons]
        split at hended
        · rename_i hb
          rw [hended, groupSum_nil, Nat.mod_eq_of_lt hb]
          exact .last hb
        · rename_i hb
          exact .more (Nat.not_lt.1 hb) (ih ⟨hended, rfl⟩)

/-- The bytes are an encoding of the number: there are at most five, the last one alone says that none
follows, and they sum up to the number, which fits a word. -/
structure IsEncoding (bytes : Bytes) (n : Nat) : Prop where
  ended : Ended bytes
  short : bytes.length ≤ 5
  sum : groupSum bytes = n
  small : n < 2 ^ 32

/-- The bytes go on to the end of what there is, and so far they could be of a number. -/
def Unfinished (bytes : Bytes) : Prop :=
  Unended bytes ∧ bytes.length ≤ 5 ∧ groupSum bytes < 2 ^ 32

/-- The bytes go on to the end of what there is, and hold no more than `k` groups of seven bits and one
of four. -/
def CutShort (k : Nat) (bytes : Bytes) : Prop :=
  Unended bytes ∧ bytes.length ≤ k + 1 ∧ groupSum bytes < 16 * 128 ^ k

theorem cutShort_four {bytes : Bytes} : CutShort 4 bytes ↔ Unfinished bytes := by
  have hbound : 16 * 128 ^ 4 = 2 ^ 32 := by decide
  rw [CutShort, Unfinished, hbound]

theorem cutShort_nil (k : Nat) : CutShort k [] :=
  ⟨unended_nil, Nat.zero_le _, Nat.mul_pos (by decide) (Nat.pow_pos (by decide))⟩

theorem cutShort_zero_cons {b : UInt8} {bytes : Bytes} :
    CutShort 0 (b :: bytes) ↔ 128 ≤ b.toNat ∧ b.toNat % 128 < 16 ∧ bytes = [] := by
  unfold CutShort
  rw [unended_cons, groupSum_cons]
  cases bytes with
  | nil => simp
  | cons b' bytes => simp

theorem cutShort_succ_cons {k : Nat} {b : UInt8} {bytes : Bytes} :
    CutShort (k + 1) (b :: bytes) ↔ 128 ≤ b.toNat ∧ CutShort k bytes := by
  unfold CutShort
  rw [unended_cons, groupSum_cons, List.length_cons, Nat.pow_succ]
  have := Nat.mod_lt b.toNat (show 0 < 128 by decide)
  constructor
  · intro h
    obtain ⟨⟨hb, hbytes⟩, hlength, hsum⟩ := h
    exact ⟨hb, hbytes, by omega, by omega⟩
  · intro h
    obtain ⟨hb, hbytes, hlength, hsum⟩ := h
    exact ⟨⟨hb, hbytes⟩, by omega, by omega⟩

/-! ### Words -/

theorem and_0x70_ne_zero (b : UInt8) : b &&& 0x70 ≠ 0 ↔ 16 ≤ b.toNat % 128 := by
  have h : ∀ i : Fin 256, UInt8.ofNat i &&& 0x70 ≠ 0 ↔ 16 ≤ i.val % 128 := by decide +kernel
  have hb := h ⟨b.toNat, b.toNat_lt⟩
  rwa [UInt8.ofNat_toNat] at hb

theorem and_0x80_eq_zero (b : UInt8) : b &&& 0x80 = 0 ↔ b.toNat < 128 := by
  have h : ∀ i : Fin 256, UInt8.ofNat i &&& 0x80 = 0 ↔ i.val < 128 := by decide +kernel
  have hb := h ⟨b.toNat, b.toNat_lt⟩
  rwa [UInt8.ofNat_toNat] at hb

theorem toNat_or_0x80 {b : UInt8} (hb : b.toNat < 128) : (b ||| 0x80).toNat = b.toNat + 128 := by
  rw [UInt8.toNat_or, Nat.or_comm, Nat.add_comm]
  exact (Nat.two_pow_add_eq_or_of_lt (i := 7) hb 1).symm

theorem toNat_and_0x7F (n : UInt32) : (n &&& 0x7F).toNat = n.toNat % 128 := by
  rw [UInt32.toNat_and]
  exact Nat.and_two_pow_sub_one_eq_mod n.toNat 7

theorem toNat_shiftRight_7 (n : UInt32) : (n >>> 7).toNat = n.toNat / 128 := by
  rw [UInt32.toNat_shiftRight]
  exact Nat.shiftRight_eq_div_pow n.toNat 7

/-- A group that has room left in a word is added to what lies below it. -/
theorem toNat_or_shiftLeft {read low : UInt32} {shift : Nat} (hread : read.toNat < 2 ^ shift)
    (hshift : shift < 32) (hfits : 2 ^ shift * low.toNat < 2 ^ 32) :
    (read ||| low <<< UInt32.ofNat shift).toNat = read.toNat + 2 ^ shift * low.toNat := by
  have hofNat : (UInt32.ofNat shift).toNat = shift :=
    UInt32.toNat_ofNat_of_lt' (Nat.lt_trans hshift (by decide))
  rw [UInt32.toNat_or, UInt32.toNat_shiftLeft, hofNat, Nat.mod_eq_of_lt hshift, Nat.shiftLeft_eq,
    Nat.mul_comm, Nat.mod_eq_of_lt hfits, Nat.or_comm, ← Nat.two_pow_add_eq_or_of_lt hread,
    Nat.add_comm]

/-- A word is written in the groups of its number. -/
theorem Encoding.word_eq_varInt (n : UInt32) : word n = varInt n.toNat := by
  have hlow (n : UInt32) : (n &&& 0x7F).toUInt8.toNat = n.toNat % 128 := by
    rw [UInt32.toNat_toUInt8, toNat_and_0x7F]
    omega
  fun_induction word n with
  | case1 n low rest hzero =>
      have hlt : n.toNat / 128 = 0 := by
        rw [← toNat_shiftRight_7, show n >>> 7 = 0 from hzero]
        rfl
      rw [varInt, if_pos (by omega)]
      apply congrArg (· :: [])
      apply UInt8.toNat_inj.1
      rw [hlow, UInt8.toNat_ofNat']
      omega
  | case2 n low rest hne ih =>
      have hge : n.toNat / 128 ≠ 0 := by
        rw [← toNat_shiftRight_7]
        exact fun hzero => hne (UInt32.toNat_inj.1 hzero)
      rw [varInt, if_neg (by omega), ih, toNat_shiftRight_7]
      apply congrArg (· :: _)
      apply UInt8.toNat_inj.1
      rw [toNat_or_0x80 (by rw [hlow]; omega), hlow, UInt8.toNat_ofNat']
      omega

namespace Decoder

variable {c c' : ByteCursor}

/-- Nothing is shifted out of a word: the last group has only the four bits that are left. -/
theorem group_fits {low shift remaining : Nat} (hshift : shift + 7 * (remaining + 1) = 35)
    (hlow : low < 128) (hlast : ¬ (remaining = 0 ∧ 16 ≤ low)) : 2 ^ shift * low < 2 ^ 32 := by
  cases remaining with
  | zero =>
      obtain rfl : shift = 28 := by omega
      omega
  | succ remaining =>
      have hpow : 2 ^ shift ≤ 2 ^ 21 := Nat.pow_le_pow_right (by decide) (by omega)
      calc 2 ^ shift * low
          ≤ 2 ^ 21 * 127 := Nat.mul_le_mul hpow (by omega)
        _ < 2 ^ 32 := by decide

/-- What the loop over words has read is added to what the recursion over numbers still reads. -/
theorem wordFrom_eq {start remaining shift : Nat} {read : UInt32} (hshift : shift + 7 * remaining = 35)
    (hread : read.toNat < 2 ^ shift) :
    wordFrom start read shift =
      (do return UInt32.ofNat (read.toNat + 2 ^ shift * (← groups start remaining))) := by
  induction remaining generalizing read shift with
  | zero =>
      rw [wordFrom, groups, bind_assoc]
      apply bind_congr
      intro b
      rw [dif_pos (.inl (by omega))]
      rfl
  | succ remaining ih =>
      rw [wordFrom, groups, bind_assoc]
      apply bind_congr
      intro b
      have hlarge : (28 < shift ∨ shift = 28 ∧ b &&& 0x70 ≠ 0) ↔
          remaining = 0 ∧ 16 ≤ b.toNat % 128 := by
        rw [and_0x70_ne_zero]
        omega
      by_cases hlast : remaining = 0 ∧ 16 ≤ b.toNat % 128
      · rw [dif_pos (hlarge.2 hlast), if_pos hlast]
        rfl
      · rw [dif_neg (mt hlarge.1 hlast), if_neg hlast]
        have hlow : (b.toUInt32 &&& 0x7F).toNat = b.toNat % 128 := toNat_and_0x7F b.toUInt32
        have hpow : 2 ^ (shift + 7) = 2 ^ shift * 128 := Nat.pow_add 2 shift 7
        have hfits : 2 ^ shift * (b.toUInt32 &&& 0x7F).toNat < 2 ^ 32 := by
          rw [hlow]
          exact group_fits hshift (Nat.mod_lt _ (by decide)) hlast
        have hor := toNat_or_shiftLeft hread (by omega) hfits
        rw [hlow] at hor
        dsimp only
        by_cases hb : b.toNat < 128
        · rw [if_pos ((and_0x80_eq_zero b).2 hb), if_pos hb, pure_bind, ← hor, UInt32.ofNat_toNat]
        · rw [if_neg (mt (and_0x80_eq_zero b).1 hb), if_neg hb, ih (by omega) ?_, bind_assoc]
          · apply bind_congr
            intro n
            rw [pure_bind, hor, hpow, Nat.mul_add, Nat.mul_assoc, Nat.add_assoc]
          · rw [hor, hpow]
            calc read.toNat + 2 ^ shift * (b.toNat % 128)
                < 2 ^ shift + 2 ^ shift * (b.toNat % 128) := Nat.add_lt_add_right hread _
              _ = 2 ^ shift * (b.toNat % 128 + 1) := by rw [Nat.mul_succ, Nat.add_comm]
              _ ≤ 2 ^ shift * 128 := Nat.mul_le_mul_left _ (by omega)

theorem word_eq : word = (do return UInt32.ofNat (← varInt)) := by
  rw [word, varInt, bind_assoc]
  apply bind_congr
  intro start
  rw [wordFrom_eq (show 0 + 7 * 5 = 35 from rfl) (by decide)]
  apply bind_congr
  intro n
  rw [Nat.pow_zero, Nat.one_mul, UInt32.toNat_zero, Nat.zero_add]

theorem run_groups_nil (start remaining position : Nat) :
    (groups start remaining).run ⟨position, []⟩ = .error (.unexpectedEnd position) := by
  cases remaining <;> rfl

theorem run_groups_cons (start remaining position : Nat) (b : UInt8) (rest : Bytes) :
    (groups start (remaining + 1)).run ⟨position, b :: rest⟩ =
      if remaining = 0 ∧ 16 ≤ b.toNat % 128 then .error (.valueTooLarge start)
      else if b.toNat < 128 then .ok (b.toNat % 128, ⟨position + 1, rest⟩)
      else do
        let (n, c) ← (groups start remaining).run ⟨position + 1, rest⟩
        return (b.toNat % 128 + 128 * n, c) := by
  have hbyte : byte.run ⟨position, b :: rest⟩ = .ok (b, ⟨position + 1, rest⟩) := rfl
  rw [groups, StateT.run_bind, hbyte, Except.ok_bind]
  dsimp only
  split
  · rfl
  · split <;> rfl

/-- What's wrong is the first group, which is too large, or what follows it. -/
theorem error_of_run_groups_cons {start remaining position : Nat} {b : UInt8} {rest : Bytes}
    {e : DecodeError} (h : (groups start (remaining + 1)).run ⟨position, b :: rest⟩ = .error e) :
    (remaining = 0 ∧ 16 ≤ b.toNat % 128) ∧ e = .valueTooLarge start ∨
      ¬ (remaining = 0 ∧ 16 ≤ b.toNat % 128) ∧ 128 ≤ b.toNat ∧
        (groups start remaining).run ⟨position + 1, rest⟩ = .error e := by
  rw [run_groups_cons] at h
  split at h
  · rename_i hlarge
    exact .inl ⟨hlarge, (Except.error.inj h).symm⟩
  · rename_i hlarge
    split at h
    · cases h
    · rename_i hb
      refine .inr ⟨hlarge, Nat.not_lt.1 hb, ?_⟩
      cases hrun : (groups start remaining).run ⟨position + 1, rest⟩ with
      | ok read =>
          rw [hrun] at h
          cases h
      | error e' =>
          rw [hrun] at h
          exact h

/-- Reading groups fails where the bytes are cut short, or else finds them too large. -/
theorem groups_error {start k : Nat} {e : DecodeError}
    (h : (groups start (k + 1)).run c = .error e) :
    CutShort k c.rest ∧ e = .unexpectedEnd c.stop ∨
      ¬ CutShort k c.rest ∧ e = .valueTooLarge start := by
  obtain ⟨position, rest⟩ := c
  induction rest generalizing position k with
  | nil =>
      rw [run_groups_nil] at h
      exact .inl ⟨cutShort_nil k, (Except.error.inj h).symm⟩
  | cons b rest ih =>
      have hstop : (ByteCursor.mk (position + 1) rest).stop =
          (ByteCursor.mk position (b :: rest)).stop := by
        simp only [ByteCursor.stop, List.length_cons]
        omega
      rw [← hstop]
      rcases error_of_run_groups_cons h with ⟨⟨rfl, hlarge⟩, he⟩ | ⟨hlarge, hb, hrest⟩
      · rw [cutShort_zero_cons]
        exact .inr ⟨by omega, he⟩
      · cases k with
        | zero =>
            rw [cutShort_zero_cons]
            -- no group is left, so that another byte is one too many
            cases rest with
            | nil => exact .inl ⟨⟨hb, by omega, rfl⟩, (Except.error.inj hrest).symm⟩
            | cons b' rest => exact .inr ⟨by simp, (Except.error.inj hrest).symm⟩
        | succ k =>
            rw [cutShort_succ_cons]
            rcases ih _ hrest with ⟨hcut, he⟩ | ⟨hnot, he⟩
            · exact .inl ⟨⟨hb, hcut⟩, he⟩
            · exact .inr ⟨fun h => hnot h.2, he⟩

theorem run_varInt_eq_ok {n : Nat} :
    varInt.run c = .ok (n, c') ↔ ∃ bytes, IsEncoding bytes n ∧ c.rest = bytes ++ c'.rest ∧
      c'.position = c.position + bytes.length := by
  rw [varInt_reads.run_eq_ok, Layout.takes_number]
  constructor
  · intro h
    obtain ⟨hn, bytes, hspelled, hlength, hrest, hposition⟩ := h
    rw [UInt32.toNat_ofNat_of_lt' hn] at hspelled
    obtain ⟨hended, hsum⟩ := spelled_iff.1 hspelled
    exact ⟨bytes, ⟨hended, hlength, hsum, hn⟩, hrest, hposition⟩
  · intro h
    obtain ⟨bytes, hbytes, hrest, hposition⟩ := h
    refine ⟨hbytes.small, bytes, ?_, hbytes.short, hrest, hposition⟩
    rw [UInt32.toNat_ofNat_of_lt' hbytes.small]
    exact spelled_iff.2 ⟨hbytes.ended, hbytes.sum⟩

theorem varInt_error {e : DecodeError} (h : varInt.run c = .error e) :
    Unfinished c.rest ∧ e = .unexpectedEnd c.stop ∨
      ¬ Unfinished c.rest ∧ e = .valueTooLarge c.position := by
  have hposition : position.run c = .ok (c.position, c) := rfl
  rw [varInt, StateT.run_bind, hposition, Except.ok_bind] at h
  rw [← cutShort_four]
  exact groups_error h

theorem run_varInt_eq_error {e : DecodeError} :
    varInt.run c = .error e ↔
      Unfinished c.rest ∧ e = .unexpectedEnd c.stop ∨
      ¬ Unfinished c.rest ∧ (∀ front back n, c.rest = front ++ back → ¬ IsEncoding front n) ∧
        e = .valueTooLarge c.position := by
  constructor
  · intro h
    rcases varInt_error h with hend | ⟨hnot, he⟩
    · exact .inl hend
    · refine .inr ⟨hnot, fun front back n hrest hfront => ?_, he⟩
      have hok : varInt.run c = .ok (n, ⟨c.position + front.length, back⟩) :=
        run_varInt_eq_ok.2 ⟨front, hfront, hrest, rfl⟩
      rw [h] at hok
      cases hok
  · intro h
    have hnone (n : Nat) (c' : ByteCursor) : varInt.run c ≠ .ok (n, c') := by
      intro hok
      obtain ⟨front, hfront, hrest, -⟩ := run_varInt_eq_ok.1 hok
      rcases h with ⟨⟨hunended, -⟩, -⟩ | ⟨-, hno, -⟩
      · rw [hrest] at hunended
        exact hfront.ended.not_unended_append hunended
      · exact hno front c'.rest n hrest hfront
    cases hrun : varInt.run c with
    | ok read => exact (hnone read.1 read.2 hrun).elim
    | error e' =>
        apply congrArg
        rcases varInt_error hrun with ⟨hend, rfl⟩ | ⟨hnot, rfl⟩
        · rcases h with ⟨-, rfl⟩ | ⟨hnot, -⟩
          · rfl
          · exact (hnot hend).elim
        · rcases h with ⟨hend, -⟩ | ⟨-, -, rfl⟩
          · exact (hnot hend).elim
          · rfl

theorem run_word (c : ByteCursor) :
    word.run c = (varInt.run c).map fun read => (UInt32.ofNat read.1, read.2) := by
  rw [word_eq]
  rfl

theorem run_word_eq_ok {n : UInt32} : word.run c = .ok (n, c') ↔ varInt.run c = .ok (n.toNat, c') := by
  rw [run_word]
  cases hrun : varInt.run c with
  | error e => simp [Except.map]
  | ok read =>
      obtain ⟨m, c₁⟩ := read
      have hm : m < 2 ^ 32 := by
        obtain ⟨front, hfront, -⟩ := run_varInt_eq_ok.1 hrun
        exact hfront.small
      simp only [Except.map, Except.ok.injEq, Prod.mk.injEq, ← UInt32.toNat_inj,
        UInt32.toNat_ofNat_of_lt' hm]

theorem run_word_eq_error {e : DecodeError} : word.run c = .error e ↔ varInt.run c = .error e := by
  rw [run_word]
  cases varInt.run c <;> simp [Except.map]

theorem isEncoding_word (n : UInt32) : IsEncoding (Encoding.word n) n.toNat := by
  rw [Encoding.word_eq_varInt]
  obtain ⟨hended, hsum⟩ := spelled_iff.1 (Spelled.varInt n.toNat)
  have hlength := Spelled.length_varInt_le_succ (k := 4) n.toNat_lt
  exact ⟨hended, hlength, hsum, n.toNat_lt⟩

/-- Exactly the encodings of 32-bit numbers in at most five bytes are read, from any place.

Bytes that end while they could still be of a number are missed at the end of the input; all others
are found too large, where they start.  A word that's written is read back, whatever follows, and
what's written is the shortest of its encodings.  The running readers and writers of numbers do as
the loops over words. -/
theorem numbers_read_exactly (c : ByteCursor) :
    (∀ n c', word.run c = .ok (n, c') ↔
      ∃ bytes, IsEncoding bytes n.toNat ∧ c.rest = bytes ++ c'.rest ∧
        c'.position = c.position + bytes.length) ∧
    (∀ e, word.run c = .error e ↔
      Unfinished c.rest ∧ e = .unexpectedEnd c.stop ∨
      ¬ Unfinished c.rest ∧ (∀ front back n, c.rest = front ++ back → ¬ IsEncoding front n) ∧
        e = .valueTooLarge c.position) ∧
    (∀ n more, c.rest = Encoding.word n ++ more →
      word.run c = .ok (n, ⟨c.position + (Encoding.word n).length, more⟩)) ∧
    (∀ n, IsEncoding (Encoding.word n) n.toNat ∧
      ∀ other, IsEncoding other n.toNat → (Encoding.word n).length ≤ other.length ∧
        (other.length = (Encoding.word n).length → other = Encoding.word n)) ∧
    varInt.run c = (word.run c).map (fun read => (read.1.toNat, read.2)) ∧
    ∀ n, Encoding.varInt n.toNat = Encoding.word n := by
  refine ⟨fun n c' => run_word_eq_ok.trans run_varInt_eq_ok,
    fun e => run_word_eq_error.trans run_varInt_eq_error, ?_, ?_, ?_, ?_⟩
  · intro n more hrest
    exact run_word_eq_ok.2 (run_varInt_eq_ok.2 ⟨_, isEncoding_word n, hrest, rfl⟩)
  · intro n
    refine ⟨isEncoding_word n, fun other hother => ?_⟩
    have hspelled : Spelled n.toNat other := spelled_iff.2 ⟨hother.ended, hother.sum⟩
    rw [Encoding.word_eq_varInt]
    exact ⟨hspelled.length_varInt_le, fun hlength => hspelled.eq_varInt (Nat.le_of_eq hlength)⟩
  · cases hword : word.run c with
    | error e => exact run_word_eq_error.1 hword
    | ok read => exact run_word_eq_ok.1 hword
  · intro n
    rw [Encoding.word_eq_varInt]

/-- One is read from three groups, of which it needs one.  Five groups that go on are cut short, but
if the fifth has more than four bits, it's that which is found first. -/
theorem numbers_read_exactly_padded :
    word.run ⟨3, [0x81, 0x80, 0, 7]⟩ = .ok (1, ⟨6, [7]⟩) ∧
      word.run ⟨3, [0xFF, 0xFF, 0xFF, 0xFF, 0x8F]⟩ = .error (.unexpectedEnd 8) ∧
      word.run ⟨3, [0xFF, 0xFF, 0xFF, 0xFF, 0x9F]⟩ = .error (.valueTooLarge 3) := by
  obtain ⟨accepts, -⟩ := numbers_read_exactly ⟨3, [0x81, 0x80, 0, 7]⟩
  obtain ⟨-, cutShort, -⟩ := numbers_read_exactly ⟨3, [0xFF, 0xFF, 0xFF, 0xFF, 0x8F]⟩
  obtain ⟨-, tooLarge, -⟩ := numbers_read_exactly ⟨3, [0xFF, 0xFF, 0xFF, 0xFF, 0x9F]⟩
  refine ⟨(accepts 1 ⟨6, [7]⟩).2 ?_, (cutShort _).2 (.inl ⟨⟨by simp, by decide, by decide⟩, rfl⟩),
    (tooLarge _).2 (.inr ⟨fun h => absurd h.2.2 (by decide), ?_, rfl⟩)⟩
  · exact ⟨[0x81, 0x80, 0], ⟨⟨[0x81, 0x80], 0, rfl, by simp, by decide⟩, by decide, by decide,
      by decide⟩, rfl, rfl⟩
  · intro front back n hrest hfront
    have hunended : Unended (front ++ back) := by
      rw [← hrest]
      simp
    exact hfront.ended.not_unended_append hunended

end Decoder

end Resumable
