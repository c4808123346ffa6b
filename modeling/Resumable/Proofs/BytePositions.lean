import Mathlib.Data.List.TakeWhile
import Resumable.Descriptor.BytePosition
import Resumable.Proofs.Descriptors

/-!
# Descriptors read either way

Reading by byte positions gives the same as reading characters one by one.  Wherever a descriptor has
been read up to, a character begins: the letters, brackets and parentheses and the semicolon take one
byte each, and no other character begins with one of their bytes.  So nothing is ever taken out of
the middle of a character.
-/

namespace Resumable

@[simp] theorem byteLength_nil : byteLength [] = 0 := rfl

@[simp] theorem byteLength_cons (c : Char) (s : List Char) :
    byteLength (c :: s) = c.utf8Size + byteLength s := rfl

@[simp] theorem byteLength_append (s t : List Char) :
    byteLength (s ++ t) = byteLength s + byteLength t := by
  induction s with
  | nil => simp
  | cons c s ih => simp [ih, Nat.add_assoc]

theorem byteLength_eq_zero {s : List Char} : byteLength s = 0 ↔ s = [] := by
  cases s with
  | nil => simp
  | cons c s =>
      have := c.utf8Size_pos
      simp only [byteLength_cons, reduceCtorEq, iff_false]
      omega

theorem size_utf8Encode (s : List Char) : s.utf8Encode.size = byteLength s := by
  induction s with
  | nil => rfl
  | cons c s ih =>
      rw [List.utf8Encode_cons, ByteArray.size_append, ih, List.utf8Encode_singleton]
      simp

theorem utf8ByteSize_eq (s : String) : s.utf8ByteSize = byteLength s.toList := by
  rw [← size_utf8Encode, String.utf8Encode_toList, String.size_toByteArray]

theorem toNat_toUInt8 {c : Char} (hc : c.val ≤ 127) :
    c.toUInt8.toNat = c.val.toNat ∧ c.val.toNat < 128 := by
  have hle : c.val.toNat ≤ 127 := UInt32.le_iff_toNat_le.1 hc
  have hbyte : c.toUInt8.toNat = c.val.toNat % 256 := UInt32.toNat_toUInt8 c.val
  omega

/-- A character that begins with the byte of an ASCII character is this character. -/
theorem head?_utf8EncodeChar {a c : Char} (ha : a.val ≤ 127) :
    (String.utf8EncodeChar c).head? = some a.toUInt8 ↔ c = a := by
  obtain ⟨hbyte, hlow⟩ := toNat_toUInt8 ha
  -- Of several bytes the first one has its upper bits set.
  have hhigh {x y : UInt8} (hy : 128 ≤ y.toNat) : x ||| y ≠ a.toUInt8 := by
    intro h
    have hle : y.toNat ≤ (x ||| y).toNat := by
      rw [UInt8.toNat_or]
      exact Nat.right_le_or
    rw [h] at hle
    omega
  constructor
  · intro h
    rcases c.utf8Size_eq with hc | hc | hc | hc
    · rw [String.utf8EncodeChar_eq_singleton hc] at h
      have hsame : c.toUInt8 = a.toUInt8 := Option.some.inj h
      have hcbyte := (toNat_toUInt8 (Char.utf8Size_eq_one_iff.1 hc)).1
      exact Char.ext (UInt32.toNat_inj.1 (by rw [← hcbyte, ← hbyte, hsame]))
    · rw [String.utf8EncodeChar_eq_cons_cons hc] at h
      exact absurd (Option.some.inj h) (hhigh (by decide))
    · rw [String.utf8EncodeChar_eq_cons_cons_cons hc] at h
      exact absurd (Option.some.inj h) (hhigh (by decide))
    · rw [String.utf8EncodeChar_eq_cons_cons_cons_cons hc] at h
      exact absurd (Option.some.inj h) (hhigh (by decide))
  · rintro rfl
    rw [String.utf8EncodeChar_eq_singleton (Char.utf8Size_eq_one_iff.2 ha)]
    rfl

section

variable {s : String} {before inside after : List Char}

theorem byteAt?_eq_head? (h : s.toList = before ++ after) :
    byteAt? s (byteLength before) = (after.flatMap String.utf8EncodeChar).head? := by
  have hlength : (before.flatMap String.utf8EncodeChar).length = byteLength before := by
    rw [← size_utf8Encode, List.utf8Encode, List.size_toByteArray]
  have hbytes : s.toByteArray.data.toList =
      before.flatMap String.utf8EncodeChar ++ after.flatMap String.utf8EncodeChar := by
    rw [← String.utf8Encode_toList, h, ← List.flatMap_append]
    exact List.toList_data_toByteArray
  rw [byteAt?, ← Array.getElem?_toList, hbytes, ← hlength,
    List.getElem?_append_right (Nat.le_refl _), Nat.sub_self, List.head?_eq_getElem?]

/-- The byte with which a character begins tells it from the ASCII characters. -/
theorem exists_byteAt? {c : Char} (h : s.toList = before ++ c :: after) :
    ∃ byte, byteAt? s (byteLength before) = some byte ∧
      ∀ a : Char, a.val ≤ 127 → (byte = a.toUInt8 ↔ c = a) := by
  rw [byteAt?_eq_head? h, List.flatMap_cons]
  cases hc : String.utf8EncodeChar c with
  | nil => exact absurd hc String.utf8EncodeChar_ne_nil
  | cons byte bytes =>
      refine ⟨byte, rfl, fun a ha => ?_⟩
      rw [← head?_utf8EncodeChar ha, hc]
      simp

theorem byteAt?_end (h : s.toList = before) : byteAt? s (byteLength before) = none := by
  have hnil : s.toList = before ++ [] := h.trans (List.append_nil _).symm
  rw [byteAt?_eq_head? hnil]
  rfl

/-- Where some characters of a text end there's a position between characters. -/
theorem isValid_byteLength (h : s.toList = before ++ after) :
    (⟨byteLength before⟩ : String.Pos.Raw).IsValid s := by
  refine String.Pos.Raw.isValid_iff_exists_append.2
    ⟨String.ofList before, String.ofList after, ?_, ?_⟩
  · rw [← String.ofList_append, ← h, String.ofList_toList]
  · rw [String.Pos.Raw.ext_iff, String.byteIdx_rawEndPos, utf8ByteSize_eq, String.toList_ofList]

/-- Characters can be taken out of a text. -/
theorem slice_eq_ok (h : s.toList = before ++ (inside ++ after)) :
    slice s (byteLength before) (byteLength before + byteLength inside) =
      .ok (String.ofList inside) := by
  have hstart := isValid_byteLength h
  have hstop := isValid_byteLength (h.trans (List.append_assoc _ _ _).symm)
  rw [byteLength_append] at hstop
  have hbytes : s.toByteArray = before.utf8Encode ++ (inside.utf8Encode ++ after.utf8Encode) := by
    rw [← String.utf8Encode_toList, h, List.utf8Encode_append, List.utf8Encode_append]
  have hextract := ByteArray.extract_append_size_add (a := before.utf8Encode)
    (b := inside.utf8Encode ++ after.utf8Encode) (i := 0) (j := byteLength inside)
  rw [size_utf8Encode] at hextract
  rw [slice, dif_pos ⟨hstart, hstop, Nat.le_add_right _ _⟩, Except.ok.injEq,
    ← String.toByteArray_inj, String.toByteArray_ofList, String.toByteArray_extract, hbytes]
  exact hextract.trans (ByteArray.extract_append_eq_left (size_utf8Encode _).symm)

/-- The last characters can be taken out of a text. -/
theorem slice_end (h : s.toList = before ++ after) :
    slice s (byteLength before) s.utf8ByteSize = .ok (String.ofList after) := by
  have hsize : s.utf8ByteSize = byteLength before + byteLength after := by
    rw [utf8ByteSize_eq, h, byteLength_append]
  have hnil : s.toList = before ++ (after ++ []) := by rw [h, List.append_nil]
  rw [hsize]
  exact slice_eq_ok hnil

/-- The position at which the last characters begin is the end of the text if there are none. -/
theorem position_eq_iff (h : s.toList = before ++ after) :
    s.utf8ByteSize - byteLength after = byteLength before ∧
      (byteLength before = s.utf8ByteSize ↔ after = []) := by
  have hsize : s.utf8ByteSize = byteLength before + byteLength after := by
    rw [utf8ByteSize_eq, h, byteLength_append]
  rw [← byteLength_eq_zero]
  omega

/-- A character that takes a byte, and the position behind it. -/
theorem exists_next {c : Char} (h : s.toList = before ++ c :: after) (hc : c.utf8Size = 1) :
    ∃ read, s.toList = read ++ after ∧ byteLength read = byteLength before + 1 :=
  ⟨before ++ [c], by simp [h], by simp [hc]⟩

end

/-- What was read of a text character by character, with the position of what follows it. -/
def atPosition {α : Type} (s : String) :
    Except DescriptorError (α × List Char) → Except ByteReadError (α × Nat)
  | .error e => .error (.descriptor e)
  | .ok (a, after) => .ok (a, s.utf8ByteSize - byteLength after)

namespace ValueType

/-- The name of an object type is read alike at a position and at the front of the characters that
follow it. -/
theorem nameAt_eq {s : String} {before rest : List Char} (h : s.toList = before ++ rest) :
    nameAt s (byteLength before) = atPosition s (match rest.dropWhile (· ≠ ';') with
      | [] => .error (.unterminatedObject s)
      | _ :: after => .ok (String.ofList (rest.takeWhile (· ≠ ';')), after)) := by
  unfold nameAt
  rw [slice_end h, Except.ok_bind]
  cases hdrop : rest.dropWhile (· ≠ ';') with
  | nil =>
      have hnone : ';' ∉ rest := by
        intro hmem
        exact of_decide_eq_true (List.dropWhile_eq_nil_iff.1 hdrop _ hmem) rfl
      simp only [find?, String.toList_ofList, hnone, if_false]
      rfl
  | cons c after =>
      obtain ⟨hplain, hrest⟩ := dropWhile_eq_cons.1 ⟨⟨c, hdrop⟩, rfl⟩
      generalize rest.takeWhile (· ≠ ';') = name at hplain hrest ⊢
      have htake : rest.takeWhile (· ≠ ';') = name := (dropWhile_eq_cons.2 ⟨hplain, hrest⟩).2
      have hmem : ';' ∈ rest := by simp [hrest]
      have hname := slice_eq_ok (hrest ▸ h)
      have hsize : s.utf8ByteSize = byteLength before + byteLength name + 1 + byteLength after := by
        rw [utf8ByteSize_eq, h, hrest]
        simp only [byteLength_append, byteLength_cons]
        have : (';').utf8Size = 1 := rfl
        omega
      simp only [find?, String.toList_ofList, hmem, if_true, htake, hname, Except.ok_bind, atPosition,
        hsize, Nat.add_sub_cancel]

/-- A type is read alike at a position and at the front of the characters that follow it. -/
theorem parseAt_eq {s : String} {before rest : List Char} (h : s.toList = before ++ rest) :
    parseAt s (byteLength before) = atPosition s (parseFront s rest) := by
  induction rest generalizing before with
  | nil =>
      have hnone := byteAt?_end (h.trans (List.append_nil _))
      rw [parseAt]
      split
      · rfl
      · rename_i byte hbyte
        rw [hnone] at hbyte
        cases hbyte
  | cons c rest ih =>
      obtain ⟨byte, hbyte, hascii⟩ := exists_byteAt? h
      rw [parseAt]
      split
      · rename_i hnone
        rw [hbyte] at hnone
        cases hnone
      · rename_i byte' hbyte'
        obtain rfl : byte = byte' := Option.some.inj (hbyte.symm.trans hbyte')
        simp only [hascii 'Z' (by decide), hascii 'I' (by decide), hascii 'J' (by decide),
          hascii 'F' (by decide), hascii 'D' (by decide), hascii 'L' (by decide),
          hascii '[' (by decide), hascii 'V' (by decide)]
        rw [parseFront]
        have hnext (t : ValueType) (hc : c.utf8Size = 1) :
            .ok (t, byteLength before + 1) = atPosition s (.ok (t, rest)) := by
          obtain ⟨read, hread, hlength⟩ := exists_next h hc
          rw [atPosition, (position_eq_iff hread).1, hlength]
        split_ifs with hZ hI hJ hF hD hL hA hV
        · exact hnext _ (hZ ▸ rfl)
        · exact hnext _ (hI ▸ rfl)
        · exact hnext _ (hJ ▸ rfl)
        · exact hnext _ (hF ▸ rfl)
        · exact hnext _ (hD ▸ rfl)
        · obtain ⟨read, hread, hlength⟩ := exists_next h (hL ▸ rfl)
          rw [← hlength, nameAt_eq hread]
          cases rest.dropWhile (· ≠ ';') <;> rfl
        · obtain ⟨read, hread, hlength⟩ := exists_next h (hA ▸ rfl)
          rw [← hlength, ih hread]
          cases parseFront s rest <;> rfl
        · rfl
        · rw [slice_end h, Except.ok_bind, (position_eq_iff h).1, String.toList_ofList]
          rfl

/-- What follows a type that's been read begins where the characters read so far end. -/
theorem exists_parseAt {s : String} {before rest after : List Char} {t : ValueType}
    (h : s.toList = before ++ rest) (hfront : parseFront s rest = .ok (t, after)) :
    ∃ read, s.toList = read ++ after ∧ parseAt s (byteLength before) = .ok (t, byteLength read) := by
  obtain ⟨-, rfl⟩ := parseFront_eq_ok.1 hfront
  have hread : s.toList = (before ++ t.chars) ++ after := by rw [h, List.append_assoc]
  refine ⟨_, hread, ?_⟩
  rw [parseAt_eq h, hfront, atPosition, (position_eq_iff hread).1]

theorem parseBytes_eq (s : String) : parseBytes s = (parse s).mapError .descriptor := by
  have hnil : s.toList = [] ++ s.toList := rfl
  rw [parseBytes, parse, ← byteLength_nil]
  cases hfront : parseFront s s.toList with
  | error e =>
      rw [parseAt_eq hnil, hfront]
      rfl
  | ok found =>
      obtain ⟨t, after⟩ := found
      obtain ⟨read, hread, hparse⟩ := exists_parseAt hnil hfront
      have hend := (position_eq_iff hread).2
      rw [hparse, Except.ok_bind]
      cases after with
      | nil => exact if_pos (hend.2 rfl)
      | cons c after => exact if_neg fun hall => by simpa using hend.1 hall

end ValueType

namespace MethodType

variable {s : String} {before rest : List Char}

/-- Before the closing parenthesis there's another parameter. -/
theorem parseParamsAt_cons {c : Char} (h : s.toList = before ++ c :: rest) (hc : c ≠ ')') :
    parseParamsAt s (byteLength before) =
      match ValueType.parseAt s (byteLength before) with
      | .error e => .error e
      | .ok (t, next) =>
        match parseParamsAt s next with
        | .error e => .error e
        | .ok (ts, after) => .ok (t :: ts, after) := by
  obtain ⟨byte, hbyte, hascii⟩ := exists_byteAt? h
  have hparenthesis : byte ≠ ')'.toUInt8 := fun heq => hc ((hascii ')' (by decide)).1 heq)
  rw [parseParamsAt]
  split
  · rename_i hnone
    rw [hbyte] at hnone
    cases hnone
  · rename_i byte' hbyte'
    obtain rfl : byte = byte' := Option.some.inj (hbyte.symm.trans hbyte')
    rw [if_neg hparenthesis]
    split
    · rename_i e herror
      rw [herror]
    · rename_i t next hok
      cases hrest : parseParamsAt s next <;> simp only [hok, hrest]

/-- Parameters are read alike at a position and at the front of the characters that follow it. -/
theorem parseParamsAt_eq (h : s.toList = before ++ rest) :
    parseParamsAt s (byteLength before) = atPosition s (parseParams s rest) := by
  fun_induction parseParams s rest generalizing before with
  | case1 =>
      have hnone := byteAt?_end (h.trans (List.append_nil _))
      rw [parseParamsAt]
      split
      · rfl
      · rename_i byte hbyte
        rw [hnone] at hbyte
        cases hbyte
  | case2 rest =>
      obtain ⟨byte, hbyte, hascii⟩ := exists_byteAt? h
      have hparenthesis : byte = ')'.toUInt8 := (hascii ')' (by decide)).2 rfl
      obtain ⟨read, hread, hlength⟩ := exists_next h rfl
      rw [parseParamsAt]
      split
      · rename_i hnone
        rw [hbyte] at hnone
        cases hnone
      · rename_i byte' hbyte'
        obtain rfl : byte = byte' := Option.some.inj (hbyte.symm.trans hbyte')
        rw [if_pos hparenthesis, atPosition, (position_eq_iff hread).1, hlength]
  | case3 c rest hc e herror =>
      simp only [parseParamsAt_cons h hc, ValueType.parseAt_eq h, herror, atPosition]
  | case4 c rest hc t after hfront e herror ih =>
      obtain ⟨read, hread, hparse⟩ := ValueType.exists_parseAt h hfront
      simp only [parseParamsAt_cons h hc, hparse, ih hread, herror, atPosition]
  | case5 c rest hc t after hfront ts last hparams ih =>
      obtain ⟨read, hread, hparse⟩ := ValueType.exists_parseAt h hfront
      simp only [parseParamsAt_cons h hc, hparse, ih hread, hparams, atPosition]

/-- The result type and the end of the descriptor are read alike as well. -/
theorem parseReturnsAt_eq (params : List ValueType) (h : s.toList = before ++ rest) :
    (do
      let (returns, position) ← parseReturnsAt s (byteLength before)
      if position = s.utf8ByteSize then .ok ⟨params, returns⟩
      else .error (.descriptor (.trailingCharacters s))) =
      ((parseReturns s rest).map (MethodType.mk params)).mapError ByteReadError.descriptor := by
  have hended {read after : List Char} (hread : s.toList = read ++ after)
      (returns : Option ValueType) :
      (if byteLength read = s.utf8ByteSize then .ok ⟨params, returns⟩
        else .error (.descriptor (.trailingCharacters s)) : Except ByteReadError MethodType) =
        ((if after = [] then Except.ok returns else .error (.trailingCharacters s)).map
          (MethodType.mk params)).mapError ByteReadError.descriptor := by
    simp only [(position_eq_iff hread).2]
    split <;> rfl
  cases rest with
  | nil =>
      simp only [parseReturnsAt, byteAt?_end (h.trans (List.append_nil _)), parseReturns]
      rfl
  | cons c rest =>
      obtain ⟨byte, hbyte, hascii⟩ := exists_byteAt? h
      simp only [parseReturnsAt, hbyte, hascii 'V' (by decide)]
      by_cases hV : c = 'V'
      · subst hV
        obtain ⟨read, hread, hlength⟩ := exists_next h rfl
        rw [if_pos rfl, Except.ok_bind, ← hlength, parseReturns.eq_2]
        exact hended hread none
      · have hne : ∀ rest', c :: rest = 'V' :: rest' → False := by
          intro rest' heq
          exact hV (List.cons.inj heq).1
        rw [if_neg hV, parseReturns.eq_3 _ _ (by simp) hne]
        cases hfront : ValueType.parseFront s (c :: rest) with
        | error e =>
            rw [ValueType.parseAt_eq h, hfront]
            rfl
        | ok found =>
            obtain ⟨t, after⟩ := found
            obtain ⟨read, hread, hparse⟩ := ValueType.exists_parseAt h hfront
            rw [hparse, Except.ok_bind]
            exact hended hread (some t)

theorem parse_of_parenthesis (h : s.toList = '(' :: rest) : parse s = (do
    let (params, after) ← parseParams s rest
    let returns ← parseReturns s after
    return ⟨params, returns⟩) := by
  rw [parse, h]
  rfl

theorem parse_of_ne {c : Char} (h : s.toList = c :: rest) (hc : c ≠ '(') :
    parse s = .error (.unexpectedCharacter s c 0) := by
  rw [parse, h]
  split
  · contradiction
  · rename_i heq
    exact absurd (List.cons.inj heq).1 hc
  · rename_i heq
    rw [(List.cons.inj heq).1]

theorem parseBytes_eq (s : String) : parseBytes s = (parse s).mapError .descriptor := by
  unfold parseBytes
  cases hs : s.toList with
  | nil =>
      have hnone : byteAt? s 0 = none := byteAt?_end hs
      rw [hnone, parse, hs]
      rfl
  | cons c rest =>
      have hfirst : s.toList = [] ++ c :: rest := hs
      obtain ⟨byte, hbyte, hascii⟩ := exists_byteAt? hfirst
      rw [byteLength_nil] at hbyte
      simp only [hbyte, hascii '(' (by decide)]
      by_cases hc : c = '('
      · subst hc
        obtain ⟨read, hread, hlength⟩ := exists_next hfirst rfl
        have hparams := parseParamsAt_eq hread
        rw [hlength, byteLength_nil, Nat.zero_add] at hparams
        rw [if_pos rfl, hparams, parse_of_parenthesis hs]
        cases hrest : parseParams s rest with
        | error e => rfl
        | ok found =>
            obtain ⟨params, after⟩ := found
            obtain ⟨-, hafter⟩ := parseParams_eq_ok.1 hrest
            have hread' : s.toList = (read ++ params.flatMap ValueType.chars ++ [')']) ++ after := by
              rw [hread, hafter]
              simp
            rw [atPosition, Except.ok_bind, (position_eq_iff hread').1]
            refine (parseReturnsAt_eq params hread').trans ?_
            rw [Except.ok_bind]
            dsimp only
            cases parseReturns s after <;> rfl
      · rw [if_neg hc, parse_of_ne hs hc]
        rfl

end MethodType

/-- True if reading by byte positions accepts exactly what's printed for values that are plain, gives
an error about the descriptor for all other texts, and agrees with reading by characters. -/
structure ReadsExactly {α : Type} (parseBytes : String → Except ByteReadError α)
    (parse : String → Except DescriptorError α) (text : α → String) (plain : α → Prop) : Prop where
  accepts : ∀ s a, parseBytes s = .ok a ↔ s = text a ∧ plain a
  rejects : ∀ s, (∀ a, ¬ (s = text a ∧ plain a)) → ∃ e, parseBytes s = .error (.descriptor e)
  agrees : ∀ s, parseBytes s = (parse s).mapError .descriptor

/-- If both ways of reading agree, all errors are about the descriptor. -/
theorem ReadsExactly.of_agrees {α : Type} {parseBytes : String → Except ByteReadError α}
    {parse : String → Except DescriptorError α} {text : α → String} {plain : α → Prop}
    (agrees : ∀ s, parseBytes s = (parse s).mapError .descriptor)
    (hparse : ∀ s a, parse s = .ok a ↔ plain a ∧ s = text a) :
    ReadsExactly parseBytes parse text plain := by
  have accepts (s : String) (a : α) : parseBytes s = .ok a ↔ s = text a ∧ plain a := by
    rw [and_comm, ← hparse, agrees]
    cases parse s <;> simp [Except.mapError]
  refine ⟨accepts, fun s hs => ?_, agrees⟩
  cases h : parse s with
  | ok a => exact absurd ((hparse s a).1 h).symm (hs a)
  | error e => exact ⟨e, by rw [agrees, h]; rfl⟩

/-- The descriptors of types of values and of methods are exactly what's read as such.  Other texts,
whatever characters they hold, give an error, and none is ever cut inside a character. -/
theorem descriptors_read_exactly :
    ReadsExactly ValueType.parseBytes ValueType.parse ValueType.text ValueType.HasPlainNames ∧
      ReadsExactly MethodType.parseBytes MethodType.parse MethodType.text
        MethodType.HasPlainNames := by
  constructor
  · exact .of_agrees ValueType.parseBytes_eq fun s t => ValueType.parse_eq_ok
  · exact .of_agrees MethodType.parseBytes_eq fun s t => MethodType.parse_eq_ok

example : ValueType.parseBytes "[Lé;" = .ok (.array (.object "é")) := by cbv

end Resumable
