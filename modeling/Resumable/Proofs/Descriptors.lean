import Mathlib.Tactic.SplitIfs
import Resumable.Descriptor.MethodType
import Resumable.Proofs.Results

/-!
# Descriptors that are read back

A type whose names hold no semicolon is what one reads from its descriptor, and whatever can be read
is the descriptor of such a type.  So each descriptor is of one type, and each such type has one
descriptor.
-/

namespace Resumable

namespace ValueType

/-- True if no object type's name holds the semicolon that would end it. -/
def HasPlainNames : ValueType → Prop
  | object name => ';' ∉ name.toList
  | array element => element.HasPlainNames
  | _ => True

instance decidableHasPlainNames : DecidablePred HasPlainNames
  | object name => inferInstanceAs (Decidable (';' ∉ name.toList))
  | array element => decidableHasPlainNames element
  | boolean | int | long | float | double => .isTrue trivial

/-- What stands before the first semicolon, and what follows it. -/
theorem dropWhile_eq_cons {s after name : List Char} :
    (∃ c, s.dropWhile (· ≠ ';') = c :: after) ∧ s.takeWhile (· ≠ ';') = name ↔
      ';' ∉ name ∧ s = name ++ ';' :: after := by
  induction s generalizing name with
  | nil => simp
  | cons d s ih =>
      by_cases hd : d = ';'
      · subst hd
        cases name <;> simp
        grind
      · cases name with
        | nil => simp [hd]
        | cons c name =>
            have hne : (decide (d ≠ ';')) = true := by simpa using hd
            simp only [List.dropWhile_cons, List.takeWhile_cons, hne, if_true, List.cons.injEq,
              List.mem_cons, List.cons_append]
            have := @ih name
            grind

/-- What is read after the letter of object types. -/
theorem parseFront_object {whole : String} {s rest : List Char} {t : ValueType} :
    (match s.dropWhile (· ≠ ';') with
      | [] => Except.error (DescriptorError.unterminatedObject whole)
      | _ :: after => .ok (object (String.ofList (s.takeWhile (· ≠ ';'))), after)) =
        .ok (t, rest) ↔
      ∃ name, t = object name ∧ ';' ∉ name.toList ∧ s = name.toList ++ ';' :: rest := by
  constructor
  · intro h
    split at h
    · cases h
    · rename_i d after hdrop
      cases h
      refine ⟨_, rfl, ?_⟩
      rw [String.toList_ofList]
      exact dropWhile_eq_cons.1 ⟨⟨d, hdrop⟩, rfl⟩
  · rintro ⟨name, rfl, hname⟩
    obtain ⟨⟨d, hdrop⟩, htake⟩ := dropWhile_eq_cons.2 hname
    rw [hdrop, htake, String.ofList_toList]

/-- One type is read at the front of a text exactly if its descriptor stands there. -/
theorem parseFront_eq_ok {whole : String} {s rest : List Char} {t : ValueType} :
    parseFront whole s = .ok (t, rest) ↔ t.HasPlainNames ∧ s = t.chars ++ rest := by
  constructor
  · intro h
    induction s generalizing t with
    | nil => simp [parseFront] at h
    | cons c s ih =>
        rw [parseFront] at h
        split_ifs at h with hZ hI hJ hF hD hL hA hV
        · cases h
          exact ⟨trivial, by rw [hZ]; rfl⟩
        · cases h
          exact ⟨trivial, by rw [hI]; rfl⟩
        · cases h
          exact ⟨trivial, by rw [hJ]; rfl⟩
        · cases h
          exact ⟨trivial, by rw [hF]; rfl⟩
        · cases h
          exact ⟨trivial, by rw [hD]; rfl⟩
        · obtain ⟨name, rfl, hname, hs⟩ := parseFront_object.1 h
          exact ⟨hname, by rw [hL, hs]; simp [chars]⟩
        · split at h
          · cases h
          · rename_i element after helement
            cases h
            obtain ⟨hnames, hs⟩ := ih helement
            exact ⟨hnames, by rw [hA, hs]; rfl⟩
  · rintro ⟨hnames, rfl⟩
    induction t with
    | object name =>
        have hchars : (object name).chars ++ rest = 'L' :: (name.toList ++ ';' :: rest) := by
          simp [chars]
        rw [hchars, parseFront]
        exact parseFront_object.2 ⟨name, rfl, hnames, rfl⟩
    | array element ih => simp [chars, parseFront, ih hnames]
    | _ => simp [chars, parseFront]

theorem parse_eq_ok {s : String} {t : ValueType} :
    parse s = .ok t ↔ t.HasPlainNames ∧ s = t.text := by
  have htext : s = t.text ↔ s.toList = t.chars ++ [] := by
    rw [← String.toList_inj, text, String.toList_ofList, List.append_nil]
  rw [htext, ← @parseFront_eq_ok s]
  simp only [parse]
  split <;> simp_all

/-- No descriptor of a value starts like the end of the parameters, or like that of a method that
returns nothing. -/
theorem exists_chars_eq (t : ValueType) : ∃ c s, t.chars = c :: s ∧ c ≠ ')' ∧ c ≠ 'V' := by
  cases t with
  | object name => exact ⟨'L', _, rfl, by decide, by decide⟩
  | array element => exact ⟨'[', _, rfl, by decide, by decide⟩
  | boolean => exact ⟨'Z', _, rfl, by decide, by decide⟩
  | int => exact ⟨'I', _, rfl, by decide, by decide⟩
  | long => exact ⟨'J', _, rfl, by decide, by decide⟩
  | float => exact ⟨'F', _, rfl, by decide, by decide⟩
  | double => exact ⟨'D', _, rfl, by decide, by decide⟩

end ValueType

namespace MethodType

/-- True if no object type's name holds the semicolon that would end it. -/
def HasPlainNames (t : MethodType) : Prop :=
  (∀ p ∈ t.params, p.HasPlainNames) ∧ ∀ r ∈ t.returns, r.HasPlainNames

/-- Parameters are read exactly if their descriptors stand before a closing parenthesis. -/
theorem parseParams_eq_ok {whole : String} {s rest : List Char} {params : List ValueType} :
    parseParams whole s = .ok (params, rest) ↔
      (∀ p ∈ params, p.HasPlainNames) ∧ s = params.flatMap ValueType.chars ++ ')' :: rest := by
  constructor
  · intro h
    fun_induction parseParams whole s generalizing params with
    | case1 => cases h
    | case2 =>
        cases h
        simp
    | case3 => cases h
    | case4 => cases h
    | case5 =>
        rename_i hfront _ _ hrest ih
        cases h
        obtain ⟨ht, hs⟩ := ValueType.parseFront_eq_ok.1 hfront
        obtain ⟨hparams, hs'⟩ := ih hrest
        refine ⟨List.forall_mem_cons.2 ⟨ht, hparams⟩, ?_⟩
        rw [hs, hs']
        simp
  · rintro ⟨hparams, rfl⟩
    induction params with
    | nil => simp [parseParams]
    | cons t params ih =>
        rw [List.forall_mem_cons] at hparams
        obtain ⟨c, s, hchars, hc, -⟩ := t.exists_chars_eq
        have hfront : ValueType.parseFront whole
            (c :: (s ++ (params.flatMap ValueType.chars ++ ')' :: rest))) =
              .ok (t, params.flatMap ValueType.chars ++ ')' :: rest) := by
          refine ValueType.parseFront_eq_ok.2 ⟨hparams.1, ?_⟩
          rw [hchars]
          rfl
        simp only [List.flatMap_cons, hchars, List.cons_append, List.append_assoc]
        rw [parseParams.eq_3 _ _ _ hc]
        split
        · rename_i e he
          rw [hfront] at he
          cases he
        · rename_i he
          rw [hfront] at he
          cases he
          rw [ih hparams.2]

/-- A result is read exactly if nothing stands there but its descriptor. -/
theorem parseReturns_eq_ok {whole : String} {s : List Char} {returns : Option ValueType} :
    parseReturns whole s = .ok returns ↔ (∀ r ∈ returns, r.HasPlainNames) ∧
      s = match returns with
        | some r => r.chars
        | none => ['V'] := by
  constructor
  · intro h
    unfold parseReturns at h
    split at h
    · cases h
    · split_ifs at h with hrest
      cases h
      simp [hrest]
    · split at h
      · cases h
      · rename_i hfront
        split_ifs at h with hrest
        cases h
        obtain ⟨ht, hs⟩ := ValueType.parseFront_eq_ok.1 hfront
        simpa [hrest, ht] using hs
  · rintro ⟨hreturns, rfl⟩
    cases returns with
    | none => simp [parseReturns]
    | some r =>
        obtain ⟨c, s, hchars, -, hc⟩ := r.exists_chars_eq
        have hfront : ValueType.parseFront whole (c :: s) = .ok (r, []) :=
          ValueType.parseFront_eq_ok.2 ⟨hreturns r rfl, by rw [← hchars, List.append_nil]⟩
        simp only [hchars]
        rw [parseReturns.eq_3 _ _ (by simp) (by grind), hfront]
        rfl

theorem parse_eq_ok {s : String} {t : MethodType} :
    parse s = .ok t ↔ t.HasPlainNames ∧ s = t.text := by
  have htext : s = t.text ↔ s.toList = t.chars := by
    rw [← String.toList_inj, text, String.toList_ofList]
  rw [htext]
  obtain ⟨params, returns⟩ := t
  constructor
  · intro h
    unfold parse at h
    split at h
    · cases h
    · rename_i hs
      obtain ⟨⟨params, after⟩, hparams, h⟩ := Except.bind_eq_ok.1 h
      obtain ⟨returns, hreturns, h⟩ := Except.bind_eq_ok.1 h
      cases h
      obtain ⟨hp, rfl⟩ := parseParams_eq_ok.1 hparams
      obtain ⟨hr, rfl⟩ := parseReturns_eq_ok.1 hreturns
      exact ⟨⟨hp, hr⟩, by rw [hs]; rfl⟩
    · cases h
  · rintro ⟨⟨hp, hr⟩, hs⟩
    unfold parse
    rw [hs]
    exact Except.bind_eq_ok.2 ⟨_, parseParams_eq_ok.2 ⟨hp, rfl⟩,
      Except.bind_eq_ok.2 ⟨_, parseReturns_eq_ok.2 ⟨hr, rfl⟩, rfl⟩⟩

end MethodType

end Resumable
