import Resumable.Proofs.Descriptors
import Resumable.Proofs.Layout
import Resumable.Unit.Decoding

/-!
# Readers and what they take

A reader reads a layout if it gives a thing exactly when the thing is one that can be written, and
its layout is spelled by the bytes that the reader takes.  This says both that everything that can
be written is read back, whatever the spelling, and that nothing else is accepted.
-/

namespace Resumable

/-- The bytes between two places of the input spell the layout. -/
def Layout.Takes (layout : Layout) (c c' : ByteCursor) : Prop :=
  ∃ bytes, layout.Spells bytes ∧ c.rest = bytes ++ c'.rest ∧
    c'.position = c.position + bytes.length

namespace Layout

variable {layout layout' : Layout} {c c' : ByteCursor}

@[simp] theorem takes_nil : Takes [] c c' ↔ c = c' := by
  constructor
  · rintro ⟨bytes, hbytes, hrest, hposition⟩
    cases hbytes
    cases c
    cases c'
    simp_all
  · rintro rfl
    exact ⟨[], .nil, rfl, rfl⟩

theorem takes_append :
    Takes (layout ++ layout') c c' ↔ ∃ c₁, Takes layout c c₁ ∧ Takes layout' c₁ c' := by
  constructor
  · rintro ⟨bytes, hbytes, hrest, hposition⟩
    obtain ⟨front, back, hfront, hback, rfl⟩ := hbytes.of_append
    refine ⟨⟨c.position + front.length, back ++ c'.rest⟩, ⟨front, hfront, ?_, rfl⟩,
      back, hback, rfl, ?_⟩
    · rw [hrest, List.append_assoc]
    · rw [hposition, List.length_append, Nat.add_assoc]
  · rintro ⟨c₁, ⟨front, hfront, hrest, hposition⟩, back, hback, hrest', hposition'⟩
    refine ⟨front ++ back, hfront.append hback, ?_, ?_⟩
    · rw [hrest, hrest', List.append_assoc]
    · rw [hposition', hposition, List.length_append, Nat.add_assoc]

theorem takes_cons {piece : Piece} :
    Takes (piece :: layout) c c' ↔ ∃ c₁, Takes [piece] c c₁ ∧ Takes layout c₁ c' := by
  rw [← List.singleton_append, takes_append]

theorem takes_raw {bytes : Bytes} :
    Takes [.raw bytes] c c' ↔
      c.rest = bytes ++ c'.rest ∧ c'.position = c.position + bytes.length := by
  constructor
  · rintro ⟨_, h, hrest, hposition⟩
    cases h with
    | raw front h =>
        cases h
        rw [List.append_nil] at hrest hposition
        exact ⟨hrest, hposition⟩
  · rintro ⟨hrest, hposition⟩
    exact ⟨bytes, by simpa using Spells.raw bytes .nil, hrest, hposition⟩

theorem takes_number {n : UInt32} :
    Takes [.number n] c c' ↔ ∃ bytes, Spelled n.toNat bytes ∧ bytes.length ≤ 5 ∧
      c.rest = bytes ++ c'.rest ∧ c'.position = c.position + bytes.length := by
  constructor
  · rintro ⟨_, h, hrest, hposition⟩
    cases h with
    | number hn hlength h =>
        cases h
        rw [List.append_nil] at hrest hposition
        exact ⟨_, hn, hlength, hrest, hposition⟩
  · rintro ⟨bytes, hn, hlength, hrest, hposition⟩
    exact ⟨bytes, by simpa using Spells.number hn hlength .nil, hrest, hposition⟩

end Layout

namespace Decoder

variable {α β : Type} {c c' : ByteCursor}

theorem run_bind_eq_ok {d : Decoder α} {f : α → Decoder β} {y : β} :
    (d >>= f).run c = .ok (y, c') ↔
      ∃ x c₁, d.run c = .ok (x, c₁) ∧ (f x).run c₁ = .ok (y, c') := by
  rw [StateT.run_bind, Except.bind_eq_ok]
  simp only [Prod.exists]

theorem run_pure_eq_ok {x y : α} :
    (pure x : Decoder α).run c = .ok (y, c') ↔ x = y ∧ c = c' := by
  rw [StateT.run_pure, Except.pure_eq_ok, Prod.mk.injEq]

theorem run_throw_eq_ok {e : DecodeError} {y : α} :
    (throw e : Decoder α).run c = .ok (y, c') ↔ False := by
  simp [throw, throwThe, MonadExceptOf.throw, StateT.lift, StateT.run, bind, Except.bind]

/-- What comes after a check is done if the check passes. -/
theorem run_check_eq_ok {p : Prop} [Decidable p] {e : DecodeError} {f : PUnit → Decoder α}
    {d : Decoder α} {y : α} :
    (if p then throw e >>= f else d).run c = .ok (y, c') ↔ ¬ p ∧ d.run c = .ok (y, c') := by
  split
  · simp only [run_bind_eq_ok, run_throw_eq_ok]
    grind
  · rename_i hp
    simp only [hp, not_false_eq_true, true_and]

theorem run_get_eq_ok {x : ByteCursor} :
    (get : Decoder ByteCursor).run c = .ok (x, c') ↔ c = x ∧ c = c' := by
  rw [StateT.run_get, Except.pure_eq_ok, Prod.mk.injEq]

theorem run_set_eq_ok {x : ByteCursor} {y : PUnit} :
    (set x : Decoder PUnit).run c = .ok (y, c') ↔ x = c' := by
  rw [StateT.run_set, Except.pure_eq_ok, Prod.mk.injEq]
  exact and_iff_right rfl

theorem run_position_eq_ok {n : Nat} :
    position.run c = .ok (n, c') ↔ c.position = n ∧ c = c' := by
  simp only [position, run_bind_eq_ok, run_get_eq_ok, run_pure_eq_ok]
  grind

theorem run_failAtEnd_eq_ok {y : α} : (failAtEnd : Decoder α).run c = .ok (y, c') ↔ False := by
  simp only [failAtEnd, run_bind_eq_ok, run_throw_eq_ok, and_false, exists_false]

/-- The reader gives exactly the things that have a property, from bytes that spell their layout. -/
structure Reads (d : Decoder α) (P : α → Prop) (layout : α → Layout) : Prop where
  run_eq_ok : ∀ {x : α} {c c' : ByteCursor}, d.run c = .ok (x, c') ↔ P x ∧ (layout x).Takes c c'

theorem split?_eq_some {n : Nat} {bytes front back : Bytes} :
    split? n bytes = some (front, back) ↔ front.length = n ∧ bytes = front ++ back := by
  induction n generalizing bytes front with
  | zero =>
      simp only [split?, Option.some.injEq, Prod.mk.injEq, List.length_eq_zero_iff]
      grind
  | succ n ih =>
      cases bytes with
      | nil => cases front <;> simp [split?]
      | cons b bytes => cases front <;> simp [split?, ih]; grind

theorem run_bytes_eq_ok {n : Nat} {front : Bytes} :
    (bytes n).run c = .ok (front, c') ↔ front.length = n ∧ Layout.Takes [.raw front] c c' := by
  obtain ⟨position', back⟩ := c'
  simp only [bytes, run_bind_eq_ok, run_get_eq_ok, Layout.takes_raw]
  constructor
  · rintro ⟨_, _, ⟨rfl, rfl⟩, h⟩
    split at h
    · rename_i hsplit
      simp only [run_bind_eq_ok, run_set_eq_ok, run_pure_eq_ok] at h
      obtain ⟨-, _, rfl, rfl, h⟩ := h
      cases h
      obtain ⟨hlength, hrest⟩ := split?_eq_some.1 hsplit
      exact ⟨hlength, hrest, by rw [hlength]⟩
    · exact (run_failAtEnd_eq_ok.1 h).elim
  · rintro ⟨rfl, hrest, rfl⟩
    refine ⟨c, c, ⟨rfl, rfl⟩, ?_⟩
    rw [split?_eq_some.2 ⟨rfl, hrest⟩]
    simp only [run_bind_eq_ok, run_set_eq_ok, run_pure_eq_ok]
    exact ⟨⟨⟩, _, rfl, trivial, rfl⟩

theorem byte_reads : byte.Reads (fun _ => True) fun b => [.raw [b]] := by
  refine ⟨fun {b c c'} => ?_⟩
  obtain ⟨position', back⟩ := c'
  simp only [byte, run_bind_eq_ok, run_get_eq_ok, Layout.takes_raw, true_and]
  constructor
  · rintro ⟨_, _, ⟨rfl, rfl⟩, h⟩
    split at h
    · rename_i hrest
      simp only [run_bind_eq_ok, run_set_eq_ok, run_pure_eq_ok] at h
      obtain ⟨-, _, rfl, rfl, h⟩ := h
      cases h
      exact ⟨hrest, rfl⟩
    · exact (run_failAtEnd_eq_ok.1 h).elim
  · rintro ⟨hrest, rfl⟩
    refine ⟨c, c, ⟨rfl, rfl⟩, ?_⟩
    rw [hrest]
    simp only [List.cons_append, List.nil_append, run_bind_eq_ok, run_set_eq_ok, run_pure_eq_ok]
    exact ⟨⟨⟩, _, rfl, trivial, rfl⟩

theorem fromLittleEndian_eq {width n : Nat} {bytes : Bytes} :
    bytes.length = width ∧ fromLittleEndian bytes = n ↔
      n < 256 ^ width ∧ bytes = Encoding.littleEndian width n := by
  induction width generalizing n bytes with
  | zero => cases bytes <;> simp [Encoding.littleEndian, fromLittleEndian, eq_comm]
  | succ width ih =>
      cases bytes with
      | nil => simp [Encoding.littleEndian]
      | cons b bytes =>
          simp only [List.length_cons, Nat.add_right_cancel_iff, fromLittleEndian,
            Encoding.littleEndian, List.cons.injEq, Nat.pow_succ]
          have hb := b.toNat_lt
          constructor
          · rintro ⟨hlength, rfl⟩
            obtain ⟨hlt, hbytes⟩ := ih.1 ⟨hlength, rfl⟩
            refine ⟨by omega, ?_, ?_⟩
            · rw [show (b.toNat + 256 * fromLittleEndian bytes) % 256 = b.toNat by omega,
                UInt8.ofNat_toNat]
            · rwa [show (b.toNat + 256 * fromLittleEndian bytes) / 256 = fromLittleEndian bytes by
                omega]
          · rintro ⟨hlt, rfl, rfl⟩
            have hlt' : n / 256 < 256 ^ width := by omega
            obtain ⟨hlength, hn⟩ := ih.2 ⟨hlt', rfl⟩
            refine ⟨hlength, ?_⟩
            rw [hn, UInt8.toNat_ofNat']
            omega

theorem fixed_reads (width : Nat) :
    (fixed width).Reads (· < 256 ^ width) fun n => [.raw (Encoding.littleEndian width n)] := by
  refine ⟨fun {n c c'} => ?_⟩
  simp only [fixed, run_bind_eq_ok, run_pure_eq_ok, run_bytes_eq_ok]
  constructor
  · rintro ⟨bytes, _, ⟨hlength, htakes⟩, rfl, rfl⟩
    obtain ⟨hlt, hbytes⟩ := fromLittleEndian_eq.1 ⟨hlength, rfl⟩
    exact ⟨hlt, hbytes ▸ htakes⟩
  · rintro ⟨hlt, htakes⟩
    obtain ⟨hlength, hn⟩ := fromLittleEndian_eq.2 ⟨hlt, rfl⟩
    exact ⟨_, c', ⟨hlength, htakes⟩, hn, rfl⟩

section
variable {γ δ : Type} {P : α → Prop} {Q : β → Prop} {R : γ → Prop} {la : α → Layout}
  {lb : β → Layout} {lc : γ → Layout} {da : Decoder α} {db : Decoder β} {dc : Decoder γ} {y : δ}

/-- What's made of one thing. -/
theorem Reads.run_map_eq_ok (ha : da.Reads P la) {f : α → δ} :
    (do return f (← da) : Decoder δ).run c = .ok (y, c') ↔
      ∃ a, f a = y ∧ P a ∧ (la a).Takes c c' := by
  simp only [run_bind_eq_ok, run_pure_eq_ok, ha.run_eq_ok]
  grind

/-- What's made of two things. -/
theorem Reads.run_map₂_eq_ok (ha : da.Reads P la) (hb : db.Reads Q lb) {f : α → β → δ} :
    (do
      let a ← da
      return f a (← db) : Decoder δ).run c = .ok (y, c') ↔
      ∃ a b, f a b = y ∧ P a ∧ Q b ∧ (la a ++ lb b).Takes c c' := by
  simp only [run_bind_eq_ok, run_pure_eq_ok, ha.run_eq_ok, hb.run_eq_ok, Layout.takes_append]
  grind

/-- What's made of three things. -/
theorem Reads.run_map₃_eq_ok (ha : da.Reads P la) (hb : db.Reads Q lb) (hc : dc.Reads R lc)
    {f : α → β → γ → δ} :
    (do
      let a ← da
      let b ← db
      return f a b (← dc) : Decoder δ).run c = .ok (y, c') ↔
      ∃ a b c₀, f a b c₀ = y ∧ P a ∧ Q b ∧ R c₀ ∧ (la a ++ (lb b ++ lc c₀)).Takes c c' := by
  simp only [run_bind_eq_ok, run_pure_eq_ok, ha.run_eq_ok, hb.run_eq_ok, hc.run_eq_ok, Layout.takes_append]
  grind

end

theorem int_reads : int.Reads (fun _ => True) fun n => [.raw (Encoding.int n)] := by
  refine ⟨fun {n c c'} => ?_⟩
  rw [int, (fixed_reads 4).run_map_eq_ok, true_and]
  constructor
  · rintro ⟨k, rfl, hk, h⟩
    rwa [Encoding.int, UInt32.toUInt32_toInt32, UInt32.toNat_ofNat_of_lt' hk]
  · intro h
    exact ⟨_, by rw [UInt32.ofNat_toNat, Int32.toInt32_toUInt32], n.toUInt32.toNat_lt, h⟩

theorem run_groups_zero_eq_ok {start n : Nat} :
    (groups start 0).run c = .ok (n, c') ↔ False := by
  simp only [groups, run_bind_eq_ok, run_throw_eq_ok, and_false, exists_false]

theorem run_groups_succ_eq_ok {start k n : Nat} :
    (groups start (k + 1)).run c = .ok (n, c') ↔
      ∃ b c₁, Layout.Takes [.raw [b]] c c₁ ∧ ¬ (k = 0 ∧ 16 ≤ b.toNat % 128) ∧
        if b.toNat < 128 then b.toNat % 128 = n ∧ c₁ = c'
        else ∃ m, b.toNat % 128 + 128 * m = n ∧ (groups start k).run c₁ = .ok (m, c') := by
  simp only [groups, run_bind_eq_ok, byte_reads.run_eq_ok, run_check_eq_ok, true_and]
  refine exists_congr fun b => exists_congr fun c₁ => and_congr_right fun _ => ?_
  refine and_congr_right fun _ => ?_
  split
  · exact run_pure_eq_ok
  · simp only [run_bind_eq_ok, run_pure_eq_ok]
    grind

/-- What's read in several groups is spelled by them. -/
theorem spelled_of_run_groups {start k n : Nat} (h : (groups start (k + 1)).run c = .ok (n, c')) :
    n < 16 * 128 ^ k ∧ ∃ bytes, Spelled n bytes ∧ bytes.length ≤ k + 1 ∧
      c.rest = bytes ++ c'.rest ∧ c'.position = c.position + bytes.length := by
  induction k generalizing n c with
  | zero =>
      obtain ⟨b, c₁, hb, hlarge, h⟩ := run_groups_succ_eq_ok.1 h
      split at h
      · rename_i hlt
        obtain ⟨rfl, rfl⟩ := h
        rw [Nat.mod_eq_of_lt hlt] at hlarge ⊢
        exact ⟨by omega, [b], .last hlt, Nat.le_refl 1, Layout.takes_raw.1 hb⟩
      · obtain ⟨m, -, h⟩ := h
        exact (run_groups_zero_eq_ok.1 h).elim
  | succ k ih =>
      obtain ⟨b, c₁, hb, -, h⟩ := run_groups_succ_eq_ok.1 h
      have hpow : 128 ^ (k + 1) = 128 * 128 ^ k := Nat.pow_succ'
      split at h
      · rename_i hlt
        obtain ⟨rfl, rfl⟩ := h
        rw [Nat.mod_eq_of_lt hlt]
        have := Nat.pow_pos (n := k) (show 0 < 128 by decide)
        exact ⟨by omega, [b], .last hlt, by simp, Layout.takes_raw.1 hb⟩
      · rename_i hge
        obtain ⟨m, rfl, hm⟩ := h
        obtain ⟨hm, bytes, hspelled, hlength, hrest, hposition⟩ := ih hm
        obtain ⟨hrest₁, hposition₁⟩ := Layout.takes_raw.1 hb
        refine ⟨by omega, b :: bytes, .more (by omega) hspelled, Nat.succ_le_succ hlength, ?_, ?_⟩
        · rw [hrest₁, hrest]
          rfl
        · rw [hposition, hposition₁, List.length_cons, List.length_cons, List.length_nil]
          omega

/-- Groups that are few enough and not too large for the number of bits are read. -/
theorem run_groups_of_spelled {start k n : Nat} {bytes : Bytes} (h : Spelled n bytes)
    (hn : n < 16 * 128 ^ k) (hlength : bytes.length ≤ k + 1) (hrest : c.rest = bytes ++ c'.rest)
    (hposition : c'.position = c.position + bytes.length) :
    (groups start (k + 1)).run c = .ok (n, c') := by
  induction h generalizing k c with
  | @last b hb =>
      refine run_groups_succ_eq_ok.2 ⟨b, c', Layout.takes_raw.2 ⟨hrest, hposition⟩, ?_, ?_⟩
      · rintro ⟨rfl, hlarge⟩
        omega
      · rw [if_pos hb]
        exact ⟨Nat.mod_eq_of_lt hb, rfl⟩
  | @more b n bytes hb h ih =>
      have hpos := h.length_pos
      cases k with
      | zero =>
          rw [List.length_cons] at hlength
          omega
      | succ k =>
          have hpow : 128 ^ (k + 1) = 128 * 128 ^ k := Nat.pow_succ'
          rw [List.length_cons] at hlength hposition
          refine run_groups_succ_eq_ok.2 ⟨b, ⟨c.position + 1, bytes ++ c'.rest⟩,
            Layout.takes_raw.2 ⟨hrest, rfl⟩, by omega, ?_⟩
          rw [if_neg (by omega)]
          exact ⟨n, rfl, ih (by omega) (by omega) rfl (by rw [hposition, Nat.add_assoc, Nat.add_comm 1])⟩

theorem varInt_reads : varInt.Reads (· < 0x100000000) fun n => [.number (UInt32.ofNat n)] := by
  refine ⟨fun {n c c'} => ?_⟩
  simp only [varInt, run_bind_eq_ok, run_position_eq_ok, Layout.takes_number]
  constructor
  · rintro ⟨_, _, ⟨rfl, rfl⟩, h⟩
    obtain ⟨hn, h⟩ := spelled_of_run_groups h
    have hn : n < 0x100000000 := by simpa using hn
    exact ⟨hn, by rwa [UInt32.toNat_ofNat_of_lt' hn]⟩
  · rintro ⟨hn, bytes, h, hlength, hrest, hposition⟩
    rw [UInt32.toNat_ofNat_of_lt' hn] at h
    exact ⟨_, _, ⟨rfl, rfl⟩, run_groups_of_spelled h (by simpa using hn) hlength hrest hposition⟩

theorem index_reads : index.Reads (fun _ => True) Layout.ofIndex := by
  refine ⟨fun {i c c'} => ?_⟩
  rw [Layout.ofIndex]
  simp only [index, run_bind_eq_ok, run_position_eq_ok, varInt_reads.run_eq_ok, true_and]
  constructor
  · rintro ⟨_, _, ⟨rfl, rfl⟩, n, c₁, ⟨-, h⟩, hi⟩
    split at hi
    · rename_i hn
      obtain ⟨rfl, rfl⟩ := run_pure_eq_ok.1 hi
      rwa [UInt16.toUInt32_ofNat' hn]
    · exact (run_throw_eq_ok.1 hi).elim
  · intro h
    have hi := i.toNat_lt
    refine ⟨_, _, ⟨rfl, rfl⟩, i.toNat, c', ⟨by omega, by rwa [UInt32.ofNat_uInt16ToNat]⟩, ?_⟩
    rw [if_pos hi, run_pure_eq_ok]
    exact ⟨UInt16.ofNat_toNat, rfl⟩

theorem label_reads : label.Reads (fun _ => True) Layout.ofLabel := by
  refine ⟨fun {l c c'} => ?_⟩
  rw [Layout.ofLabel]
  rw [label, varInt_reads.run_map_eq_ok, true_and]
  constructor
  · rintro ⟨n, rfl, -, h⟩
    exact h
  · intro h
    exact ⟨_, by rw [UInt32.ofNat_toNat], l.number.toNat_lt, by rwa [UInt32.ofNat_toNat]⟩

section
variable {P : α → Prop} {layout : α → Layout} {d : Decoder α}

theorem Reads.run_many_eq_ok (h : d.Reads P layout) {n : Nat} {xs : List α} :
    (many d n).run c = .ok (xs, c') ↔
      xs.length = n ∧ (∀ x ∈ xs, P x) ∧ (Layout.Takes (xs.flatMap layout) c c') := by
  induction n generalizing xs c c' with
  | zero =>
      rw [many, run_pure_eq_ok, List.length_eq_zero_iff]
      constructor
      · rintro ⟨rfl, rfl⟩
        simp
      · rintro ⟨rfl, -, h⟩
        exact ⟨rfl, Layout.takes_nil.1 h⟩
  | succ n ih =>
      simp only [many, run_bind_eq_ok, run_pure_eq_ok, h.run_eq_ok, ih]
      constructor
      · rintro ⟨x, c₁, ⟨hx, htakes⟩, xs, _, ⟨rfl, hxs, htakes'⟩, rfl, rfl⟩
        exact ⟨rfl, List.forall_mem_cons.2 ⟨hx, hxs⟩,
          Layout.takes_append.2 ⟨c₁, htakes, htakes'⟩⟩
      · rintro ⟨hlength, hxs, htakes⟩
        cases xs with
        | nil => cases hlength
        | cons x xs =>
            obtain ⟨hx, hxs⟩ := List.forall_mem_cons.1 hxs
            obtain ⟨c₁, htakes, htakes'⟩ := Layout.takes_append.1 htakes
            exact ⟨x, c₁, ⟨hx, htakes⟩, xs, c', ⟨Nat.succ.inj hlength, hxs, htakes'⟩, rfl, rfl⟩

theorem Reads.list (h : d.Reads P layout) :
    (list d).Reads (fun xs => xs.length < 0x100000000 ∧ ∀ x ∈ xs, P x) (Layout.ofList layout) := by
  refine ⟨fun {xs c c'} => ?_⟩
  rw [Decoder.list, run_bind_eq_ok, Layout.ofList, Layout.takes_cons]
  simp only [varInt_reads.run_eq_ok, h.run_many_eq_ok]
  grind

end

theorem fromUTF8?_eq_some {bytes : Bytes} {s : String} :
    String.fromUTF8? ⟨bytes.toArray⟩ = some s ↔ bytes = s.toUTF8.data.toList := by
  have hbytes : bytes = s.toUTF8.data.toList ↔ (⟨bytes.toArray⟩ : ByteArray) = s.toByteArray := by
    rw [ByteArray.ext_iff, ← Array.toList_inj]
    rfl
  rw [hbytes, String.fromUTF8?]
  split
  · simp only [String.fromUTF8, Option.some.injEq, ← String.toByteArray_inj]
  · rename_i hinvalid
    simp only [reduceCtorEq, false_iff]
    intro h
    exact hinvalid (h ▸ s.isValidUTF8)

theorem text_reads : text.Reads (fun s => s.utf8ByteSize < 0x100000000) Layout.ofText := by
  refine ⟨fun {s c c'} => ?_⟩
  rw [Layout.ofText, Layout.takes_cons]
  simp only [text, run_bind_eq_ok, run_position_eq_ok, varInt_reads.run_eq_ok, run_bytes_eq_ok]
  constructor
  · rintro ⟨n, c₁, ⟨hn, hcount⟩, _, _, ⟨rfl, rfl⟩, bytes, c₂, ⟨rfl, hbytes⟩, h⟩
    split at h
    · rename_i hutf8
      obtain ⟨rfl, rfl⟩ := run_pure_eq_ok.1 h
      obtain rfl : bytes = _ := fromUTF8?_eq_some.1 hutf8
      exact ⟨hn, c₁, hcount, hbytes⟩
    · exact (run_throw_eq_ok.1 h).elim
  · rintro ⟨hlength, c₁, hcount, hbytes⟩
    refine ⟨_, c₁, ⟨hlength, hcount⟩, _, _, ⟨rfl, rfl⟩, s.toUTF8.data.toList, c', ⟨rfl, hbytes⟩, ?_⟩
    rw [fromUTF8?_eq_some.2 rfl]
    exact run_pure_eq_ok.2 ⟨rfl, rfl⟩

theorem descriptor_reads {parse : String → Except DescriptorError α} {P : α → Prop}
    {print : α → String} (hparse : ∀ {s x}, parse s = .ok x ↔ P x ∧ s = print x) :
    (descriptor parse).Reads (fun x => P x ∧ (print x).utf8ByteSize < 0x100000000)
      fun x => Layout.ofText (print x) := by
  refine ⟨fun {x c c'} => ?_⟩
  simp only [descriptor, run_bind_eq_ok, run_position_eq_ok, text_reads.run_eq_ok]
  constructor
  · rintro ⟨_, _, ⟨rfl, rfl⟩, s, c₁, ⟨hlength, htakes⟩, h⟩
    split at h
    · rename_i hs
      obtain ⟨rfl, rfl⟩ := run_pure_eq_ok.1 h
      obtain ⟨hx, rfl⟩ := hparse.1 hs
      exact ⟨⟨hx, hlength⟩, htakes⟩
    · exact (run_throw_eq_ok.1 h).elim
  · rintro ⟨⟨hx, hlength⟩, htakes⟩
    refine ⟨_, _, ⟨rfl, rfl⟩, _, c', ⟨hlength, htakes⟩, ?_⟩
    rw [hparse.2 ⟨hx, rfl⟩]
    exact run_pure_eq_ok.2 ⟨rfl, rfl⟩

/-- If what follows a byte is decided by what the byte stands for, the thing's byte is read. -/
theorem ofByte_reads {ofByte? : UInt8 → Option α} {toByte : α → UInt8}
    {next : Nat → UInt8 → Decoder α} (h : ∀ {b x}, ofByte? b = some x ↔ b = toByte x)
    (hsome : ∀ start b x, ofByte? b = some x → next start b = pure x)
    (hnone : ∀ start b, ofByte? b = none → ∃ e, next start b = throw e) :
    Reads (position >>= fun start => byte >>= next start) (fun _ => True)
      fun x => [.raw [toByte x]] := by
  refine ⟨fun {x c c'} => ?_⟩
  simp only [run_bind_eq_ok, run_position_eq_ok, byte_reads.run_eq_ok, true_and]
  constructor
  · rintro ⟨start, _, ⟨rfl, rfl⟩, b, c₁, htakes, hx⟩
    cases hb : ofByte? b with
    | some y =>
        rw [hsome _ b y hb] at hx
        obtain ⟨rfl, rfl⟩ := run_pure_eq_ok.1 hx
        rwa [← h.1 hb]
    | none =>
        obtain ⟨e, he⟩ := hnone c.position b hb
        rw [he] at hx
        exact (run_throw_eq_ok.1 hx).elim
  · intro htakes
    refine ⟨_, _, ⟨rfl, rfl⟩, _, c', htakes, ?_⟩
    rw [hsome _ _ x (h.2 rfl)]
    exact run_pure_eq_ok.2 ⟨rfl, rfl⟩

theorem operand_reads {name : String} {ofByte? : UInt8 → Option α} {toByte : α → UInt8}
    (h : ∀ {b x}, ofByte? b = some x ↔ b = toByte x) :
    (operand name ofByte?).Reads (fun _ => True) fun x => [.raw [toByte x]] :=
  ofByte_reads h (fun start b x hb => by rw [hb]) fun start b hb => by
    simp only [hb]
    exact ⟨_, rfl⟩

/-- Members of a list are numbered by their places in it. -/
theorem getElem?_toNat_eq_some {l : List α} [DecidableEq α] (hnodup : l.Nodup)
    (hlength : l.length ≤ 256) (hmem : ∀ x, x ∈ l) {b : UInt8} {x : α} :
    l[b.toNat]? = some x ↔ b = UInt8.ofNat (l.idxOf x) := by
  have hlt := List.idxOf_lt_length_of_mem (hmem x)
  have hb := b.toNat_lt
  constructor
  · intro h
    obtain ⟨hlt', hx⟩ := List.getElem?_eq_some_iff.1 h
    rw [← hx, hnodup.idxOf_getElem, UInt8.ofNat_toNat]
  · rintro rfl
    rw [UInt8.toNat_ofNat', Nat.mod_eq_of_lt (by omega), List.getElem?_eq_getElem hlt, List.getElem_idxOf]

theorem valueKind_reads : valueKind.Reads (fun _ => True) fun k => [.raw [k.byte]] :=
  operand_reads (getElem?_toNat_eq_some (by decide) (by decide) fun k => by cases k <;> decide)

theorem numericKind_reads : numericKind.Reads (fun _ => True) fun k => [.raw [k.byte]] :=
  operand_reads (getElem?_toNat_eq_some (by decide) (by decide) fun k => by cases k <;> decide)

theorem condition_reads : condition.Reads (fun _ => True) fun c => [.raw [c.byte]] :=
  operand_reads (getElem?_toNat_eq_some (by decide) (by decide) fun c => by cases c <;> decide)

theorem binaryOp_reads : binaryOp.Reads (fun _ => True) fun op => [.raw [op.byte]] :=
  operand_reads (getElem?_toNat_eq_some (by decide) (by decide) fun op => by cases op <;> decide)

theorem opcode_reads : opcode.Reads (fun _ => True) fun o => [.raw [o.byte]] := by
  have h {b : UInt8} {o : Opcode} : Opcode.ofByte? b = some o ↔ b = o.byte :=
    getElem?_toNat_eq_some (by decide) (by decide) fun o => by cases o <;> decide
  exact ofByte_reads h (fun start b o hb => by rw [hb]) fun start b hb => by
    simp only [hb]
    exact ⟨_, rfl⟩

theorem flag_reads : flag.Reads (fun _ => True) fun b => [.raw [Encoding.flag b]] := by
  refine operand_reads fun {b x} => ?_
  cases x <;> simp only [Encoding.flag] <;> grind

theorem valueType_reads : valueType.Reads
    (fun t => t.HasPlainNames ∧ t.text.utf8ByteSize < 0x100000000) fun t => Layout.ofText t.text :=
  descriptor_reads ValueType.parse_eq_ok

theorem methodType_reads : methodType.Reads
    (fun t => t.HasPlainNames ∧ t.text.utf8ByteSize < 0x100000000) fun t => Layout.ofText t.text :=
  descriptor_reads MethodType.parse_eq_ok

end Decoder

end Resumable
