import Mathlib.Algebra.Group.Nat.Defs
import Resumable.Unit.Encoding

/-!
# Layouts of bytes

What's written in the format is bytes that can only stand as they are, and numbers, which may be
spelled with more groups of bits than they need.  A layout is a sequence of such pieces.  Of all the
byte strings that spell a layout, `Layout.bytes` is the shortest, and no other one is as short.
-/

namespace Resumable

/-- The bytes spell the number in groups of seven bits, the lowest group first; every byte but the
last has its top bit set. -/
inductive Spelled : Nat → Bytes → Prop
  | last {b : UInt8} : b.toNat < 128 → Spelled b.toNat [b]
  | more {b : UInt8} {n : Nat} {bytes : Bytes} : 128 ≤ b.toNat → Spelled n bytes →
      Spelled (b.toNat % 128 + 128 * n) (b :: bytes)

namespace Spelled

variable {n : Nat} {bytes : Bytes}

theorem varInt (n : Nat) : Spelled n (Encoding.varInt n) := by
  fun_induction Encoding.varInt n with
  | case1 n hn =>
      have hb : (UInt8.ofNat n).toNat = n := by
        rw [UInt8.toNat_ofNat']
        omega
      have := Spelled.last (b := UInt8.ofNat n) (by omega)
      rwa [hb] at this
  | case2 n hn ih =>
      have hb : (UInt8.ofNat (n % 128 + 128)).toNat = n % 128 + 128 := by
        rw [UInt8.toNat_ofNat']
        omega
      have := Spelled.more (b := UInt8.ofNat (n % 128 + 128)) (by omega) ih
      rwa [hb, show (n % 128 + 128) % 128 + 128 * (n / 128) = n by omega] at this

theorem length_pos (h : Spelled n bytes) : 0 < bytes.length := by
  cases h <;> simp

/-- No spelling of a number is shorter than the one that's written. -/
theorem length_varInt_le (h : Spelled n bytes) : (Encoding.varInt n).length ≤ bytes.length := by
  induction h with
  | last hb =>
      rw [Encoding.varInt, if_pos hb]
      exact Nat.le_refl 1
  | @more b n bytes hb h ih =>
      rw [Encoding.varInt]
      split
      · simp
      · rw [show (b.toNat % 128 + 128 * n) / 128 = n by omega]
        simpa using ih

/-- A number has one spelling in each number of groups. -/
theorem eq_of_length_eq {bytes' : Bytes} (h : Spelled n bytes) (h' : Spelled n bytes')
    (hlength : bytes.length = bytes'.length) : bytes = bytes' := by
  induction h generalizing bytes' with
  | @last b hb =>
      generalize hn : b.toNat = n at h'
      cases h' with
      | last => rw [UInt8.toNat_inj.1 hn]
      | more hb' h' =>
          have := h'.length_pos
          simp only [List.length_cons, List.length_nil] at hlength
          omega
  | @more b m rest hb h ih =>
      have hpos := h.length_pos
      generalize hn : b.toNat % 128 + 128 * m = n at h'
      cases h' with
      | last =>
          simp only [List.length_cons, List.length_nil] at hlength
          omega
      | @more b' m' rest' hb' h' =>
          have hlt := b.toNat_lt
          have hlt' := b'.toNat_lt
          obtain rfl : m = m' := by omega
          obtain rfl : b = b' := UInt8.toNat_inj.1 (by omega)
          rw [ih h' (Nat.succ.inj hlength)]

/-- A spelling as short as the one that's written is the one that's written. -/
theorem eq_varInt (h : Spelled n bytes) (hlength : bytes.length ≤ (Encoding.varInt n).length) :
    bytes = Encoding.varInt n :=
  h.eq_of_length_eq (.varInt n) (Nat.le_antisymm hlength h.length_varInt_le)

/-- The number that's written takes as few groups as hold its bits. -/
theorem length_varInt_le_succ {k : Nat} (h : n < 16 * 128 ^ k) : (Encoding.varInt n).length ≤ k + 1 := by
  induction k generalizing n with
  | zero =>
      rw [Encoding.varInt, if_pos (by omega)]
      exact Nat.le_refl 1
  | succ k ih =>
      rw [Encoding.varInt]
      split
      · simp
      · have := ih (n := n / 128) (by rw [Nat.pow_succ] at h; omega)
        simpa using this

end Spelled

/-- A part of what's written. -/
inductive Piece
  /-- Bytes that can only stand as they are. -/
  | raw (bytes : Bytes)
  /-- A number in groups of seven bits. -/
  | number (n : UInt32)

/-- What's written, piece by piece. -/
abbrev Layout := List Piece

namespace Layout

/-- The bytes of a layout whose numbers take no more groups than they need. -/
def bytes (layout : Layout) : Bytes :=
  layout.flatMap fun
    | .raw bytes => bytes
    | .number n => Encoding.varInt n.toNat

@[simp] theorem bytes_nil : bytes [] = [] := rfl

@[simp] theorem bytes_raw (front : Bytes) (layout : Layout) :
    bytes (.raw front :: layout) = front ++ bytes layout := rfl

@[simp] theorem bytes_number (n : UInt32) (layout : Layout) :
    bytes (.number n :: layout) = Encoding.varInt n.toNat ++ bytes layout := rfl

@[simp] theorem bytes_append (layout layout' : Layout) :
    bytes (layout ++ layout') = layout.bytes ++ layout'.bytes := List.flatMap_append

theorem bytes_flatMap {α : Type} (xs : List α) (f : α → Layout) :
    bytes (xs.flatMap f) = xs.flatMap fun x => (f x).bytes := List.flatMap_assoc

/-- A list's elements after their number. -/
def ofList {α : Type} (f : α → Layout) (xs : List α) : Layout :=
  .number (UInt32.ofNat xs.length) :: xs.flatMap f

/-- A text after the number of its bytes. -/
def ofText (s : String) : Layout :=
  [.number (UInt32.ofNat s.utf8ByteSize), .raw s.toUTF8.data.toList]

theorem bytes_ofList {α : Type} (f : α → Layout) (xs : List α) :
    (ofList f xs).bytes = Encoding.list (fun x => (f x).bytes) xs := by
  rw [ofList, bytes_number, bytes_flatMap, UInt32.toNat_ofNat']
  rfl

theorem bytes_ofText (s : String) : (ofText s).bytes = Encoding.text s := by
  rw [ofText, bytes_number, bytes_raw, bytes_nil, List.append_nil, UInt32.toNat_ofNat']
  rfl

def ofLabel (l : Label) : Layout := [.number l.number]

def ofIndex (i : UInt16) : Layout := [.number i.toUInt32]

/-- A case of a switch over keys. -/
def ofCase (x : Int32 × Label) : Layout := .raw (Encoding.int x.1) :: ofLabel x.2

theorem bytes_ofLabel (l : Label) : (ofLabel l).bytes = Encoding.label l := by
  simp [ofLabel, Encoding.label]

theorem bytes_ofIndex (i : UInt16) : (ofIndex i).bytes = Encoding.index i := by
  simp [ofIndex, Encoding.index]

theorem bytes_ofCase (x : Int32 × Label) :
    (ofCase x).bytes = Encoding.int x.1 ++ Encoding.label x.2 := by
  rw [ofCase, bytes_raw, bytes_ofLabel]

/-- The bytes hold the pieces of a layout, in which numbers are spelled in up to five groups. -/
inductive Spells : Layout → Bytes → Prop
  | nil : Spells [] []
  | raw {layout : Layout} {bytes : Bytes} (front : Bytes) :
      Spells layout bytes → Spells (.raw front :: layout) (front ++ bytes)
  | number {layout : Layout} {front bytes : Bytes} {n : UInt32} :
      Spelled n.toNat front → front.length ≤ 5 → Spells layout bytes →
      Spells (.number n :: layout) (front ++ bytes)

theorem spells_bytes (layout : Layout) : Spells layout layout.bytes := by
  induction layout with
  | nil => exact .nil
  | cons piece layout ih =>
      cases piece with
      | raw front => exact .raw front ih
      | number n => exact .number (.varInt _) (Spelled.length_varInt_le_succ (k := 4) n.toNat_lt) ih

namespace Spells

variable {layout layout' : Layout} {bytes : Bytes}

theorem length_bytes_le (h : Spells layout bytes) : layout.bytes.length ≤ bytes.length := by
  induction h with
  | nil => exact Nat.le_refl 0
  | raw front h ih => simpa using ih
  | number hn _ h ih =>
      have := hn.length_varInt_le
      simp only [bytes_number, List.length_append]
      omega

/-- Bytes that spell a layout as shortly as possible are its bytes. -/
theorem eq_bytes (h : Spells layout bytes) (hlength : bytes.length ≤ layout.bytes.length) :
    bytes = layout.bytes := by
  induction h with
  | nil => rfl
  | raw front h ih =>
      simp only [bytes_raw, List.length_append] at hlength ⊢
      rw [ih (by omega)]
  | number hn _ h ih =>
      have := hn.length_varInt_le
      have := h.length_bytes_le
      simp only [bytes_number, List.length_append] at hlength ⊢
      rw [ih (by omega), hn.eq_varInt (by omega)]

theorem append {bytes' : Bytes} (h : Spells layout bytes) (h' : Spells layout' bytes') :
    Spells (layout ++ layout') (bytes ++ bytes') := by
  induction h with
  | nil => exact h'
  | raw front h ih =>
      rw [List.append_assoc]
      exact .raw front ih
  | number hn hlength h ih =>
      rw [List.append_assoc]
      exact .number hn hlength ih

/-- What spells two layouts one after the other falls into two parts. -/
theorem of_append (h : Spells (layout ++ layout') bytes) :
    ∃ front back, Spells layout front ∧ Spells layout' back ∧ bytes = front ++ back := by
  induction layout generalizing bytes with
  | nil => exact ⟨[], bytes, .nil, h, rfl⟩
  | cons piece layout ih =>
      cases h with
      | raw first h =>
          obtain ⟨front, back, hfront, hback, rfl⟩ := ih h
          exact ⟨first ++ front, back, .raw first hfront, hback, (List.append_assoc ..).symm⟩
      | @number _ first _ _ hn hlength h =>
          obtain ⟨front, back, hfront, hback, rfl⟩ := ih h
          exact ⟨first ++ front, back, .number hn hlength hfront, hback,
            (List.append_assoc ..).symm⟩

end Spells

end Layout

end Resumable
