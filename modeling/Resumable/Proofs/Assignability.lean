import Resumable.Frame.Weight
import Resumable.Machine.Value

/-!
# The order of frame values

Assignability orders the reference types, and the frame values whose references are to such types:
the unknown value is above everything, null below every reference.  Merging gives the least value
above both of its arguments.  The rule by which the running machine checks the types of objects is
the same one.
-/

namespace Resumable

namespace ValueType

/-- Every reference can be used as one to the root type. -/
theorem root_isAssignableFrom (t : ValueType) : root.isAssignableFrom t := by
  cases t <;> simp [root, isAssignableFrom]

theorem isReference_of_isAssignableFrom {target source : ValueType}
    (h : target.isAssignableFrom source) : target.isReference := by
  cases target <;> simp_all [isAssignableFrom, isReference]

theorem isAssignableFrom_trans {a b c : ValueType} (hab : a.isAssignableFrom b)
    (hbc : b.isAssignableFrom c) : a.isAssignableFrom c := by
  induction a generalizing b c with
  | object name =>
      by_cases hroot : name = rootTypeName
      · subst hroot
        exact root_isAssignableFrom c
      · have hb : b = .object name := by
          cases b <;> simp_all [isAssignableFrom]
        exact hb ▸ hbc
  | array a ih =>
      obtain ⟨b, rfl⟩ : ∃ t, b = .array t := by
        cases b <;> simp_all [isAssignableFrom]
      obtain ⟨c, rfl⟩ : ∃ t, c = .array t := by
        cases c <;> simp_all [isAssignableFrom]
      by_cases ha : a.isReference ∧ b.isReference
      · by_cases hc : c.isReference
        · simp only [isAssignableFrom, ha, hc, Bool.and_true, if_true] at hab hbc ⊢
          exact ih hab hbc
        · have : b = c := by simpa [isAssignableFrom, hc] using hbc
          simp_all
      · have : a = b := by
          simp only [isAssignableFrom, Bool.and_eq_true, ha, if_false, decide_eq_true_eq] at hab
          exact hab
        exact this ▸ hbc
  | _ => simp [isAssignableFrom] at hab

theorem isAssignableFrom_antisymm {a b : ValueType} (hab : a.isAssignableFrom b)
    (hba : b.isAssignableFrom a) : a = b := by
  apply Decidable.byContradiction
  intro hne
  have := height_lt_of_isAssignableFrom hab hne
  have := height_lt_of_isAssignableFrom hba (Ne.symm hne)
  omega

theorem isReference_merge {a b : ValueType} (ha : a.isReference) : (a.merge b).isReference := by
  fun_cases merge a b with
  | case1 => rfl
  | case2 => rfl
  | case3 => rfl
  | case4 => rfl
  | case5 => exact ha
  | case6 _ _ _ _ h => exact isReference_of_isAssignableFrom h
  | case7 => rfl

/-- A type above two reference types is above their merge. -/
theorem isAssignableFrom_merge {a b c : ValueType} (ha : c.isAssignableFrom a)
    (hb : c.isAssignableFrom b) : c.isAssignableFrom (a.merge b) := by
  fun_induction merge a b generalizing c with
  | case1 => exact ha
  | case2 => exact hb
  | case3 a b _ _ hrefs ih =>
      simp only [Bool.and_eq_true] at hrefs
      cases c with
      | object name => simpa [isAssignableFrom] using ha
      | array c =>
          by_cases hc : c.isReference
          · simp only [isAssignableFrom, hc, hrefs, Bool.and_true, if_true] at ha hb
            simpa [isAssignableFrom, hc, isReference_merge hrefs.1] using ih ha hb
          · have : c = a := by simpa [isAssignableFrom, hc] using ha
            simp_all
      | _ => simp [isAssignableFrom] at ha
  | case4 a b hab hba hrefs =>
      cases c with
      | object name => simpa [isAssignableFrom, root] using ha
      | array c =>
          by_cases hc : c.isReference
          · cases hra : a.isReference <;> cases hrb : b.isReference <;>
              simp_all [isAssignableFrom]
          · have hca : c = a := by simpa [isAssignableFrom, hc] using ha
            have hcb : c = b := by simpa [isAssignableFrom, hc] using hb
            subst hca hcb
            simp [isAssignableFrom] at hab
            simp_all
      | _ => simp [isAssignableFrom] at ha
  | case5 => exact ha
  | case6 => exact hb
  | case7 a b hnot hab hba =>
      cases c with
      | object name =>
          by_cases hroot : name = rootTypeName
          · exact hroot ▸ root_isAssignableFrom _
          · have hca : a = .object name := by cases a <;> simp_all [isAssignableFrom]
            have hcb : b = .object name := by cases b <;> simp_all [isAssignableFrom]
            simp_all [isAssignableFrom]
      | array c =>
          cases a <;> cases b <;> simp_all [isAssignableFrom]
      | _ => simp [isAssignableFrom] at ha

theorem isAssignableFrom_merge_left {a b : ValueType} (ha : a.isReference) :
    (a.merge b).isAssignableFrom a := by
  fun_induction merge a b with
  | case1 => exact isAssignableFrom_refl _ ha
  | case2 _ _ _ h => exact h
  | case3 a b _ _ hrefs ih =>
      simp only [Bool.and_eq_true] at hrefs
      simpa [isAssignableFrom, hrefs.1, isReference_merge hrefs.1] using ih hrefs.1
  | case4 => exact root_isAssignableFrom _
  | case5 => exact isAssignableFrom_refl _ ha
  | case6 _ _ _ _ h => exact h
  | case7 => exact root_isAssignableFrom _

theorem isAssignableFrom_merge_right {a b : ValueType} (hb : b.isReference) :
    (a.merge b).isAssignableFrom b := by
  fun_induction merge a b with
  | case1 _ _ h => exact h
  | case2 => exact isAssignableFrom_refl _ hb
  | case3 a b _ _ hrefs ih =>
      simp only [Bool.and_eq_true] at hrefs
      simpa [isAssignableFrom, hrefs.2, isReference_merge hrefs.1] using ih hrefs.2
  | case4 => exact root_isAssignableFrom _
  | case5 _ _ _ h => exact h
  | case6 => exact isAssignableFrom_refl _ hb
  | case7 => exact root_isAssignableFrom _

/-- The machine's check of an object's type is assignability. -/
theorem accepts_eq_isAssignableFrom {expected actual : ValueType} (he : expected.isReference)
    (ha : actual.isReference) : expected.accepts actual = expected.isAssignableFrom actual := by
  induction expected generalizing actual with
  | object name =>
      cases actual <;> simp_all [accepts, isAssignableFrom, root, isReference]
  | array expected ih =>
      cases actual with
      | array actual =>
          by_cases hr : expected.isReference ∧ actual.isReference
          · simpa [accepts, isAssignableFrom, hr] using ih hr.1 hr.2
          · simp [accepts, isAssignableFrom, hr]
      | _ => simp_all [accepts, isAssignableFrom, root, isReference]
  | _ => simp [isReference] at he

end ValueType

namespace FrameValue

/-- True for all but references to what isn't a reference type. -/
def IsProper (v : FrameValue) : Prop := ∀ t, v = reference t → t.isReference

theorem isProper_ofType (t : ValueType) : (ofType t).IsProper := by
  intro s h
  cases t <;> simp_all [ofType] <;> simp [← h, ValueType.isReference]

theorem isAssignableFrom_refl {v : FrameValue} (h : v.IsProper) : v.isAssignableFrom v := by
  cases v with
  | reference t => exact ValueType.isAssignableFrom_refl t (h t rfl)
  | _ => simp [isAssignableFrom]

theorem isAssignableFrom_trans {a b c : FrameValue} (hab : a.isAssignableFrom b)
    (hbc : b.isAssignableFrom c) : a.isAssignableFrom c := by
  cases a <;> cases b <;> cases c <;> simp_all [isAssignableFrom]
  exact ValueType.isAssignableFrom_trans hab hbc

theorem isAssignableFrom_antisymm {a b : FrameValue} (hab : a.isAssignableFrom b)
    (hba : b.isAssignableFrom a) : a = b := by
  cases a <;> cases b <;> simp_all [isAssignableFrom]
  exact ValueType.isAssignableFrom_antisymm hab hba

/-- Only the unknown value is above the unknown value. -/
theorem eq_top_of_isAssignableFrom_top {v : FrameValue} (h : v.isAssignableFrom top) : v = top := by
  cases v <;> simp_all [isAssignableFrom]

/-- Values below a value that's known are of its kind. -/
theorem kind_eq_of_isAssignableFrom {target source : FrameValue}
    (h : target.isAssignableFrom source) (hne : target ≠ top) : source.kind? = target.kind? := by
  cases target <;> cases source <;> simp_all [isAssignableFrom, kind?]

theorem isWide_eq_of_isAssignableFrom {target source : FrameValue}
    (h : target.isAssignableFrom source) (hne : target ≠ top) :
    source.isWide = target.isWide := by
  cases target <;> cases source <;> simp_all [isAssignableFrom, isWide]

theorem isProper_merge {a b : FrameValue} (ha : a.IsProper) (hb : b.IsProper) :
    (a.merge b).IsProper := by
  fun_cases merge a b with
  | case1 => exact ha
  | case2 => exact hb
  | case3 => exact ha
  | case4 s t =>
      intro u hu
      cases hu
      exact ValueType.isReference_merge (ha s rfl)
  | case5 => simp [IsProper]

theorem isAssignableFrom_merge_left {a b : FrameValue} (ha : a.IsProper) :
    (a.merge b).isAssignableFrom a := by
  fun_cases merge a b with
  | case1 => exact isAssignableFrom_refl ha
  | case2 => simp [isAssignableFrom]
  | case3 => exact isAssignableFrom_refl ha
  | case4 s t => exact ValueType.isAssignableFrom_merge_left (ha s rfl)
  | case5 => simp [isAssignableFrom]

theorem isAssignableFrom_merge_right {a b : FrameValue} (hb : b.IsProper) :
    (a.merge b).isAssignableFrom b := by
  fun_cases merge a b with
  | case1 => exact isAssignableFrom_refl hb
  | case2 => exact isAssignableFrom_refl hb
  | case3 => simp [isAssignableFrom]
  | case4 s t => exact ValueType.isAssignableFrom_merge_right (hb t rfl)
  | case5 => simp [isAssignableFrom]

/-- A value above two values is above their merge. -/
theorem isAssignableFrom_merge {a b c : FrameValue} (ha : c.isAssignableFrom a)
    (hb : c.isAssignableFrom b) : c.isAssignableFrom (a.merge b) := by
  fun_cases merge a b with
  | case1 => exact ha
  | case2 => exact hb
  | case3 => exact ha
  | case4 s t =>
      cases c with
      | reference u => exact ValueType.isAssignableFrom_merge ha hb
      | _ => simp_all [isAssignableFrom]
  | case5 => cases c <;> cases a <;> cases b <;> simp_all [isAssignableFrom]

end FrameValue

end Resumable
