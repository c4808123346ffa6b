import Resumable.Instrumentation.Instrument
import Resumable.Proofs.Results

/-!
# Instrumenting in place

The resumable forms of a unit's methods are collected with their indices, and put in place at the
end.  What comes of it is what instrumenting each method for itself gives: if one fails, nothing is
changed.
-/

namespace Resumable

namespace Method

theorem instrument_of_no_need {owner : String} {m : Method} (h : m.needsInstrumentation = false) :
    m.instrument owner = .ok m := by
  simp only [instrument, h]
  rfl

theorem mapM_instrument_of_no_need {owner : String} {methods : List Method}
    (h : methods.countP needsInstrumentation = 0) :
    methods.mapM (instrument owner) = .ok methods := by
  induction methods with
  | nil => rfl
  | cons m methods ih =>
      obtain ⟨hm, hmethods⟩ : m.needsInstrumentation = false ∧
          methods.countP needsInstrumentation = 0 := by
        simpa [List.countP_eq_zero] using h
      rw [List.mapM_cons, instrument_of_no_need hm, Except.ok_bind, ih hmethods, Except.ok_bind]
      rfl

end Method

namespace CompiledUnit

/-- If one of the methods can't be made resumable, the first such one tells why. -/
theorem resumableForms_of_error {owner : String} {methods : List Method} {e : InstrumentError}
    (h : methods.mapM (Method.instrument owner) = .error e) (index : Nat) :
    resumableForms owner index methods = .error e := by
  induction methods generalizing index with
  | nil => cases h
  | cons m methods ih =>
      rw [List.mapM_cons] at h
      unfold resumableForms
      by_cases hneeds : m.needsInstrumentation
      · rw [if_pos hneeds]
        cases hform : m.instrument owner with
        | error e' =>
            rw [hform] at h
            cases h
            rfl
        | ok form =>
            rw [hform, Except.ok_bind] at h
            cases hrest : methods.mapM (Method.instrument owner) with
            | error e' =>
                rw [hrest] at h
                cases h
                rw [Except.ok_bind, ih hrest]
                rfl
            | ok rest =>
                rw [hrest] at h
                cases h
      · rw [if_neg hneeds]
        apply ih
        rw [Method.instrument_of_no_need (by simpa using hneeds), Except.ok_bind] at h
        cases hrest : methods.mapM (Method.instrument owner) with
        | error e' =>
            rw [hrest] at h
            cases h
            rfl
        | ok rest =>
            rw [hrest] at h
            cases h

/-- Putting the collected forms in place makes each method what it becomes for itself. -/
theorem exists_resumableForms {owner : String} {methods made : List Method}
    (h : methods.mapM (Method.instrument owner) = .ok made) (before : List Method) :
    ∃ forms, resumableForms owner before.length methods = .ok forms ∧
      forms.length = methods.countP Method.needsInstrumentation ∧
      replaceMethods (before ++ methods) forms = before ++ made := by
  -- The methods before the first one are as they'll be, so they grow by what it becomes.
  induction methods generalizing made before with
  | nil =>
      cases h
      exact ⟨[], rfl, rfl, rfl⟩
  | cons m methods ih =>
      rw [List.mapM_cons] at h
      obtain ⟨form, hform, h⟩ := Except.bind_eq_ok.1 h
      obtain ⟨rest, hrest, h⟩ := Except.bind_eq_ok.1 h
      cases h
      obtain ⟨forms, hforms, hcount, hreplace⟩ := ih hrest (before ++ [form])
      rw [List.length_append, List.length_singleton] at hforms
      rw [List.append_assoc, List.singleton_append] at hreplace
      unfold resumableForms
      by_cases hneeds : m.needsInstrumentation
      · refine ⟨(before.length, form) :: forms, ?_, ?_, ?_⟩
        · rw [if_pos hneeds, hform, Except.ok_bind, hforms]
          rfl
        · rw [List.length_cons, hcount, List.countP_cons_of_pos hneeds]
        · simpa [replaceMethods] using hreplace
      · have hsame : m.instrument owner = .ok m :=
          Method.instrument_of_no_need (by simpa using hneeds)
        obtain rfl : m = form := Except.ok.inj (hsame.symm.trans hform)
        refine ⟨forms, ?_, ?_, ?_⟩
        · rw [if_neg hneeds, hforms]
        · rw [hcount, List.countP_cons_of_neg hneeds]
        · simpa using hreplace

/-- A unit is skipped, or its methods become what each becomes for itself, or nothing happens. -/
theorem instrumentInPlace_eq (settings : InstrumentSettings) (u : CompiledUnit) :
    u.instrumentInPlace settings =
      if u.flags.isInstrumented && !settings.reinstrument then (.ok 0, u)
      else
        match u.methods.mapM (Method.instrument u.name) with
        | .error e => (.error e, u)
        | .ok methods =>
          let count := u.methods.countP Method.needsInstrumentation
          (.ok count,
            { u with
              methods
              flags := if count = 0 then u.flags else u.flags.union .instrumented }) := by
  unfold instrumentInPlace
  by_cases hskip : u.flags.isInstrumented && !settings.reinstrument
  · rw [if_pos hskip, if_pos hskip]
  · rw [if_neg hskip, if_neg hskip]
    cases hmade : u.methods.mapM (Method.instrument u.name) with
    | error e => rw [resumableForms_of_error hmade]
    | ok made =>
        obtain ⟨forms, hforms, hcount, hreplace⟩ := exists_resumableForms hmade []
        rw [List.nil_append, List.nil_append] at hreplace
        rw [List.length_nil] at hforms
        rw [hforms]
        dsimp only
        rw [hcount, hreplace]
        by_cases hnone : u.methods.countP Method.needsInstrumentation = 0
        · obtain rfl := Except.ok.inj ((Method.mapM_instrument_of_no_need hnone).symm.trans hmade)
          rw [if_pos hnone, if_pos hnone, hnone]
        · rw [if_neg hnone, if_neg hnone]

/-- The unit that's made is the one that's left in place. -/
theorem instrument_eq (settings : InstrumentSettings) (u : CompiledUnit) :
    u.instrument settings = do
      if u.flags.isInstrumented && !settings.reinstrument then return (0, u)
      let count := u.methods.countP Method.needsInstrumentation
      let methods ← u.methods.mapM (Method.instrument u.name)
      if count = 0 then return (0, u)
      return (count, { u with methods, flags := u.flags.union .instrumented }) := by
  unfold instrument
  rw [instrumentInPlace_eq]
  by_cases hskip : u.flags.isInstrumented && !settings.reinstrument
  · rw [if_pos hskip, if_pos hskip]
    rfl
  · rw [if_neg hskip, if_neg hskip]
    cases hmade : u.methods.mapM (Method.instrument u.name) with
    | error e => rfl
    | ok made =>
        by_cases hnone : u.methods.countP Method.needsInstrumentation = 0
        · obtain rfl := Except.ok.inj ((Method.mapM_instrument_of_no_need hnone).symm.trans hmade)
          simp only [hnone, if_true, Except.ok_bind]
          rfl
        · simp only [hnone, if_false, Except.ok_bind]
          rfl

end CompiledUnit

end Resumable
