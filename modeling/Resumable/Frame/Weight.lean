import Resumable.Frame.Basic

/-!
# Merging makes frames lighter

Null lies below every reference, and below every reference type lie only finitely many steps up to
the unknown value.  So the nulls of a frame and the heights of its values, in this order, weigh the
frame: `Frame.lighter_of_merge` says that a merge that changes a frame makes it lighter.
-/

namespace Resumable

/-- A number of nulls and a sum of heights, compared in this order. -/
structure Weight where
  nulls : Nat
  heights : Nat

namespace Weight

/-- True if the first weight is the smaller one. -/
def Lighter (a b : Weight) : Prop := a.nulls < b.nulls ∨ a.nulls = b.nulls ∧ a.heights < b.heights

def add (a b : Weight) : Weight := ⟨a.nulls + b.nulls, a.heights + b.heights⟩

theorem Lighter.add_left {a b : Weight} (h : a.Lighter b) (c : Weight) :
    (c.add a).Lighter (c.add b) := by
  simp only [Lighter, Weight.add] at *
  omega

theorem Lighter.add_right {a b : Weight} (h : a.Lighter b) (c : Weight) :
    (a.add c).Lighter (b.add c) := by
  simp only [Lighter, Weight.add] at *
  omega

theorem Lighter.trans {a b c : Weight} (h : a.Lighter b) (k : b.Lighter c) : a.Lighter c := by
  simp only [Lighter] at *
  omega

end Weight

namespace ValueType

/-- A bound on the number of different types on a way up to the root type. -/
def height : ValueType → Nat
  | object name => if name = rootTypeName then 1 else 2
  | array element => element.height + 1
  | _ => 2

theorem height_pos (t : ValueType) : 0 < t.height := by
  cases t <;> simp [height]
  split <;> omega

theorem one_lt_height_of_ne_root {t : ValueType} (h : t ≠ root) : 1 < t.height := by
  cases t with
  | object name => simp_all [height, root]
  | array element => have := element.height_pos; simp [height]; omega
  | _ => simp [height]

theorem isAssignableFrom_refl (t : ValueType) (h : t.isReference) : t.isAssignableFrom t := by
  induction t with
  | array element ih =>
    by_cases he : element.isReference <;> simp_all [isAssignableFrom]
  | object name => simp [isAssignableFrom]
  | _ => simp [isReference] at h

/-- A type lies below another one that it can be assigned to. -/
theorem height_lt_of_isAssignableFrom {target source : ValueType}
    (h : target.isAssignableFrom source) (hne : target ≠ source) :
    target.height < source.height := by
  induction target generalizing source with
  | object name =>
    cases source with
    | array element =>
      have := element.height_pos
      simp_all [isAssignableFrom, height]
    | _ => simp_all [isAssignableFrom, height] <;> grind
  | array element ih =>
    cases source with
    | array other =>
      simp only [isAssignableFrom] at h
      split at h
      · have := ih h (by simpa using hne)
        simp [height]
        omega
      · simp_all
    | _ => simp [isAssignableFrom] at h
  | _ => simp [isAssignableFrom] at h

theorem height_merge_lt {a b : ValueType} (h : a.merge b ≠ a) : (a.merge b).height < a.height := by
  induction a generalizing b with
  | array a ih =>
    cases b with
    | array b =>
      rw [merge] at h ⊢
      split at h
      · exact absurd rfl h
      · rename_i hab
        rw [if_neg hab]
        split at h
        · rename_i hba
          rw [if_pos hba]
          exact height_lt_of_isAssignableFrom hba h
        · rename_i hba
          rw [if_neg hba]
          split at h
          · rename_i href
            rw [if_pos href]
            have := @ih b (by simpa using h)
            simp [height]
            omega
          · rename_i href
            have := a.height_pos
            rw [if_neg href]
            simp [height, root]
            omega
    | _ =>
      simp only [merge] at h ⊢
      split at h
      · exact absurd rfl h
      · rename_i hab
        rw [if_neg hab]
        split at h
        · rename_i hba
          rw [if_pos hba]
          exact height_lt_of_isAssignableFrom hba h
        · rename_i hba
          rw [if_neg hba]
          exact one_lt_height_of_ne_root (fun e => h e.symm)
  | object name =>
    have hroot := one_lt_height_of_ne_root (t := .object name)
    simp only [merge] at h ⊢
    split at h
    · exact absurd rfl h
    · rename_i hab
      rw [if_neg hab]
      split at h
      · rename_i hba
        rw [if_pos hba]
        exact height_lt_of_isAssignableFrom hba h
      · rename_i hba
        rw [if_neg hba]
        exact hroot (fun e => h e.symm)
  | _ =>
    simp only [merge] at h ⊢
    split at h
    · exact absurd rfl h
    · rename_i hab
      rw [if_neg hab]
      split at h
      · rename_i hba
        rw [if_pos hba]
        exact height_lt_of_isAssignableFrom hba h
      · rename_i hba
        rw [if_neg hba]
        exact one_lt_height_of_ne_root (fun e => h e.symm)

end ValueType

namespace FrameValue

def weight : FrameValue → Weight
  | top => ⟨0, 1⟩
  | null => ⟨1, 1⟩
  | reference t => ⟨0, t.height + 1⟩
  | _ => ⟨0, 2⟩

theorem lighter_of_merge {a b : FrameValue} (h : a.merge b ≠ a) :
    (a.merge b).weight.Lighter a.weight := by
  unfold merge at h ⊢
  split at h
  · exact absurd rfl h
  · rename_i hab
    rw [if_neg hab]
    split at h
    · simp [weight, Weight.Lighter]
    · exact absurd rfl h
    · rename_i s t
      have := ValueType.height_merge_lt (a := s) (b := t) (by simpa using h)
      simp [weight, Weight.Lighter]
      omega
    · cases a <;> simp_all [weight, Weight.Lighter, ValueType.height_pos]

end FrameValue

namespace Frame

/-- The weight of a list of values. -/
def listWeight (values : List FrameValue) : Weight :=
  (values.map FrameValue.weight).foldr Weight.add ⟨0, 0⟩

/-- Locals that are as many as those that arrive for them are merged value by value. -/
theorem mergeLocals_eq_zipWith {known incoming : List FrameValue}
    (h : known.length = incoming.length) :
    mergeLocals known incoming = List.zipWith FrameValue.merge known incoming := by
  fun_induction mergeLocals known incoming with
  | case1 a known b incoming ih => simp [ih (by simpa using h)]
  | case2 known incoming hnot =>
    cases known with
    | nil => simp
    | cons a known =>
      cases incoming with
      | nil => simp at h
      | cons b incoming => exact (hnot a known b incoming rfl rfl).elim

theorem lighter_of_mergeLocals {known incoming : List FrameValue}
    (h : mergeLocals known incoming ≠ known) :
    (listWeight (mergeLocals known incoming)).Lighter (listWeight known) := by
  fun_induction mergeLocals known incoming with
  | case1 a known b incoming ih =>
    by_cases ha : a.merge b = a
    · have := ih (by simpa [ha] using h)
      simpa [listWeight, ha] using this.add_left _
    · have first := FrameValue.lighter_of_merge ha
      by_cases hr : mergeLocals known incoming = known
      · simpa [listWeight, hr] using first.add_right _
      · have rest := ih hr
        simpa [listWeight] using (first.add_right _).trans (rest.add_left _)
  | case2 => exact absurd rfl h

/-- The known values change if and only if merging gives others. -/
theorem changes_iff {known incoming : List FrameValue} :
    changes known incoming ↔ mergeLocals known incoming ≠ known := by
  fun_induction changes known incoming with
  | case1 a known b incoming ih =>
    simp only [Bool.or_eq_true, ih, decide_eq_true_eq, mergeLocals, ne_eq, List.cons.injEq,
      Decidable.not_and_iff_not_or_not]
  | case2 known incoming hnot =>
    have : mergeLocals known incoming = known := mergeLocals.eq_2 known incoming hnot
    simp [this]

theorem mergeStacks_eq_zipWith {known incoming stack : List FrameValue}
    (h : mergeStacks known incoming = .ok stack) :
    stack = List.zipWith FrameValue.merge known incoming := by
  induction known generalizing incoming stack with
  | nil => cases h; rfl
  | cons a known ih =>
    cases incoming with
    | nil => cases h; rfl
    | cons b incoming =>
      rw [mergeStacks] at h
      cases hr : mergeStacks known incoming with
      | error e => rw [hr] at h; cases h
      | ok below =>
        rw [hr] at h
        simp only [bind, Except.bind] at h
        split at h
        · cases h
        · cases h
          rw [List.zipWith_cons_cons, ← ih hr]

def weight (f : Frame) : Weight := (listWeight f.locals).add (listWeight f.stack)

/-- A merge that changes a frame makes it lighter. -/
theorem lighter_of_merge {known incoming merged : Frame} (h : known.merge incoming = .ok merged)
    (hne : merged ≠ known) : merged.weight.Lighter known.weight := by
  rw [merge] at h
  split at h
  · rename_i hheight
    cases hs : mergeStacks known.stack incoming.stack with
    | error e => rw [hs] at h; cases h
    | ok stack =>
      rw [hs] at h
      cases h
      have hstack := (mergeStacks_eq_zipWith hs).trans (mergeLocals_eq_zipWith hheight).symm
      subst hstack
      by_cases hl : mergeLocals known.locals incoming.locals = known.locals
      · by_cases ht : mergeLocals known.stack incoming.stack = known.stack
        · simp [hl, ht] at hne
        · simpa [weight, hl] using (lighter_of_mergeLocals ht).add_left _
      · have first := lighter_of_mergeLocals hl
        by_cases ht : mergeLocals known.stack incoming.stack = known.stack
        · simpa [weight, ht] using first.add_right _
        · have rest := lighter_of_mergeLocals ht
          simpa [weight] using (first.add_right _).trans (rest.add_left _)
  · cases h

/-- A frame where another one arrives becomes their merge, and has changed if that is another. -/
theorem mergeFrom_eq (known incoming : Frame) :
    known.mergeFrom incoming =
      (known.merge incoming).map fun merged => (decide (merged ≠ known), merged) := by
  rw [mergeFrom, merge]
  split
  · rename_i hheight
    cases hs : mergeStacks known.stack incoming.stack with
    | error e => rfl
    | ok stack =>
      have hstack := (mergeStacks_eq_zipWith hs).trans (mergeLocals_eq_zipWith hheight).symm
      subst hstack
      have hne : (changes known.stack incoming.stack || changes known.locals incoming.locals) =
          decide (Frame.mk (mergeLocals known.locals incoming.locals)
            (mergeLocals known.stack incoming.stack) ≠ known) := by
        obtain ⟨locals, stack⟩ := known
        rw [Bool.eq_iff_iff, Bool.or_eq_true, changes_iff, changes_iff, decide_eq_true_eq]
        simp only [ne_eq, Frame.mk.injEq, Decidable.not_and_iff_not_or_not, or_comm]
      simp only [bind, Except.bind, pure, Except.pure, Except.map, hne]
  · rfl

end Frame

end Resumable
