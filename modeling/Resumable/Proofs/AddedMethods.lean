import Resumable.Proofs.InstrumentedUnits

/-!
# Instrumenting again with added methods

Instrumenting looks at each method for itself.  Either all that need a resumable form get it and the
other ones stay as they are, or nothing changes and the first failure is reported.  So nothing is
left to do the second time, and methods that are added afterwards become what they'd have become
with the others.
-/

namespace Resumable

/-- What fails for a list has failed for one of its members, and for none before it. -/
theorem Except.mapM_eq_error {ε α β : Type} {f : α → Except ε β} {l : List α} {e : ε} :
    l.mapM f = .error e ↔ ∃ before a after, l = before ++ a :: after ∧ f a = .error e ∧
      ∀ b ∈ before, ∃ c, f b = .ok c := by
  constructor
  · intro h
    induction l with
    | nil => cases h
    | cons a l ih =>
        cases ha : f a with
        | error e' =>
            rw [List.mapM_cons, ha] at h
            cases h
            exact ⟨[], a, l, rfl, ha, by simp⟩
        | ok b =>
            have hrest : l.mapM f = .error e := by
              rw [List.mapM_cons, ha, Except.ok_bind] at h
              cases hl : l.mapM f with
              | error e' =>
                  rw [hl] at h
                  cases h
                  rfl
              | ok rest =>
                  rw [hl] at h
                  cases h
            obtain ⟨before, a', after, rfl, ha', hbefore⟩ := ih hrest
            exact ⟨a :: before, a', after, rfl, ha', List.forall_mem_cons.2 ⟨⟨b, ha⟩, hbefore⟩⟩
  · rintro ⟨before, a, after, rfl, ha, hbefore⟩
    induction before with
    | nil =>
        rw [List.nil_append, List.mapM_cons, ha]
        rfl
    | cons b before ih =>
        obtain ⟨⟨c, hc⟩, hbefore⟩ := List.forall_mem_cons.1 hbefore
        rw [List.cons_append, List.mapM_cons, hc, Except.ok_bind, ih hbefore]
        rfl

theorem UnitFlags.union_union (f g : UnitFlags) : (f.union g).union g = f.union g := by
  simp only [union, UInt8.or_assoc, UInt8.or_self]

namespace Method

variable {owner : String} {d d' : Method} {e : InstrumentError}

/-- True if the second method is the first one's resumable form, marked as such, or the first one
itself if that doesn't need one. -/
def Becomes (owner : String) (d d' : Method) : Prop :=
  if d.needsInstrumentation then
    ∃ t, d.transform owner = .ok t ∧ d' = { t with access := t.access.union .instrumented }
  else d' = d

theorem instrument_iff_becomes : d.instrument owner = .ok d' ↔ Becomes owner d d' := by
  unfold instrument Becomes
  by_cases hneeds : d.needsInstrumentation
  · rw [if_pos hneeds, if_pos hneeds, Except.bind_eq_ok]
    constructor
    · rintro ⟨t, ht, h⟩
      cases h
      exact ⟨t, ht, rfl⟩
    · rintro ⟨t, ht, rfl⟩
      exact ⟨t, ht, rfl⟩
  · rw [if_neg hneeds, if_neg hneeds, Except.pure_eq_ok]
    exact eq_comm

/-- Only a transformation fails. -/
theorem instrument_eq_error :
    d.instrument owner = .error e ↔ d.needsInstrumentation ∧ d.transform owner = .error e := by
  unfold instrument
  by_cases hneeds : d.needsInstrumentation
  · rw [if_pos hneeds]
    cases d.transform owner with
    | error e' => simp [hneeds, bind, Except.bind]
    | ok t => simp [bind, Except.bind, pure, Except.pure]
  · rw [if_neg hneeds]
    simp [hneeds, pure, Except.pure]

theorem exists_instrument_iff :
    (∃ d', d.instrument owner = .ok d') ↔
      (d.needsInstrumentation → ∃ t, d.transform owner = .ok t) := by
  simp only [instrument_iff_becomes, Becomes]
  by_cases hneeds : d.needsInstrumentation
  · simp [hneeds]
  · simp [hneeds]

end Method

namespace CompiledUnit

variable {u u' : CompiledUnit} {settings : InstrumentSettings} {n : Nat} {e : InstrumentError}

/-- The unit with methods added at its end. -/
def append (u : CompiledUnit) (added : List Method) : CompiledUnit :=
  { u with methods := u.methods ++ added }

/-- True if the unit is left alone because it has been instrumented before. -/
def IsSkipped (settings : InstrumentSettings) (u : CompiledUnit) : Prop :=
  u.flags.isInstrumented ∧ settings.reinstrument = false

/-- True if the error is that of the first method that needs a resumable form and can't have one. -/
def FailsWith (u : CompiledUnit) (e : InstrumentError) : Prop :=
  ∃ before d after, u.methods = before ++ d :: after ∧
    (d.needsInstrumentation ∧ d.transform u.name = .error e) ∧
    ∀ b ∈ before, b.needsInstrumentation → ∃ t, b.transform u.name = .ok t

/-- What becomes of a unit whose methods become the given ones. -/
def withMade (u : CompiledUnit) (methods : List Method) : CompiledUnit :=
  { u with
    methods
    flags :=
      if u.methods.countP Method.needsInstrumentation = 0 then u.flags
      else u.flags.union .instrumented }

theorem instrumentInPlace_of_skipped (h : u.IsSkipped settings) :
    u.instrumentInPlace settings = (.ok 0, u) := by
  rw [instrumentInPlace_eq, if_pos (by simp [h.1, h.2])]

theorem instrumentInPlace_eq_ok (h : ¬u.IsSkipped settings) :
    u.instrumentInPlace settings = (.ok n, u') ↔
      ∃ methods, u.methods.mapM (Method.instrument u.name) = .ok methods ∧
        n = u.methods.countP Method.needsInstrumentation ∧ u' = u.withMade methods := by
  rw [instrumentInPlace_eq, if_neg (by simpa [IsSkipped] using h)]
  cases u.methods.mapM (Method.instrument u.name) with
  | error e => simp
  | ok methods =>
      simp only [Prod.mk.injEq, Except.ok.injEq, exists_eq_left', withMade]
      exact and_congr eq_comm eq_comm

theorem instrumentInPlace_eq_error (h : u.instrumentInPlace settings = (.error e, u')) :
    u' = u ∧ u.methods.mapM (Method.instrument u.name) = .error e := by
  rw [instrumentInPlace_eq] at h
  split at h
  · cases h
  · cases hmade : u.methods.mapM (Method.instrument u.name) with
    | error e' =>
        rw [hmade] at h
        cases h
        exact ⟨rfl, rfl⟩
    | ok methods =>
        rw [hmade] at h
        cases h

theorem failsWith_of_mapM (h : u.methods.mapM (Method.instrument u.name) = .error e) :
    u.FailsWith e := by
  obtain ⟨before, d, after, hmethods, hd, hbefore⟩ := Except.mapM_eq_error.1 h
  refine ⟨before, d, after, hmethods, Method.instrument_eq_error.1 hd, ?_⟩
  intro b hb
  exact Method.exists_instrument_iff.1 (hbefore b hb)

/-- No method needs a resumable form once all have become what they become. -/
theorem countP_of_mapM {owner : String} {methods made : List Method}
    (h : methods.mapM (Method.instrument owner) = .ok made) :
    made.countP Method.needsInstrumentation = 0 := by
  rw [List.countP_eq_zero]
  intro d' hd'
  obtain ⟨d, -, hd⟩ := exists_mem_of_forall₂ (Except.mapM_eq_ok.1 h) hd'
  simp [Method.needsInstrumentation_of_instrument hd]

/-- There's nothing to do to a unit in which no method needs a resumable form. -/
theorem instrumentInPlace_of_no_need (h : u.methods.countP Method.needsInstrumentation = 0) :
    u.instrumentInPlace settings = (.ok 0, u) := by
  by_cases hskipped : u.IsSkipped settings
  · exact instrumentInPlace_of_skipped hskipped
  · rw [instrumentInPlace_eq_ok hskipped]
    exact ⟨u.methods, Method.mapM_instrument_of_no_need h, h.symm, by simp [withMade, h]⟩

theorem mapM_append {owner : String} {methods added made made' : List Method}
    (h : methods.mapM (Method.instrument owner) = .ok made)
    (h' : added.mapM (Method.instrument owner) = .ok made') :
    (methods ++ added).mapM (Method.instrument owner) = .ok (made ++ made') := by
  rw [Except.mapM_eq_ok] at h h' ⊢
  exact forall₂_append h h'

/-- Methods that are added to an instrumented unit become what they'd have become before. -/
theorem withMade_append {made added : List Method}
    (h : u.methods.mapM (Method.instrument u.name) = .ok made) (made' : List Method) :
    ((u.withMade made).append added).withMade (made ++ made') =
      (u.append added).withMade (made ++ made') := by
  have hflags : ((u.withMade made).append added).withMade (made ++ made') =
      { u with
        methods := made ++ made'
        flags :=
          if added.countP Method.needsInstrumentation = 0 then (u.withMade made).flags
          else (u.withMade made).flags.union .instrumented } := by
    simp only [withMade, append, List.countP_append, countP_of_mapM h, Nat.zero_add]
  rw [hflags]
  simp only [withMade, append, List.countP_append, Nat.add_eq_zero_iff]
  by_cases hnone : u.methods.countP Method.needsInstrumentation = 0
  · simp only [hnone, if_true, true_and]
  · simp only [hnone, if_false, false_and, UnitFlags.union_union, ite_self]

/-- Instrumenting a unit, whether it's skipped or not, and instrumenting it again with added methods
makes of it what instrumenting all at once makes of it. -/
theorem instrumentInPlace_append {added : List Method} {first again : InstrumentSettings}
    (hsettings : settings.reinstrument) (hagain : again.reinstrument)
    (succeeds : ∀ d ∈ u.methods ++ added, d.needsInstrumentation →
      ∃ t, d.transform u.name = .ok t) :
    ∃ n₁ u₁ n₂ u', u.instrumentInPlace first = (.ok n₁, u₁) ∧
      (u₁.append added).instrumentInPlace again = (.ok n₂, u') ∧
      (u.append added).instrumentInPlace settings = (.ok (n₁ + n₂), u') := by
  have hmake {methods : List Method} (h : methods ⊆ u.methods ++ added) :
      ∃ made, methods.mapM (Method.instrument u.name) = .ok made := by
    obtain ⟨made, hmade⟩ := exists_forall₂ fun d hd =>
      Method.exists_instrument_iff.2 (succeeds d (h hd))
    exact ⟨made, Except.mapM_eq_ok.2 hmade⟩
  obtain ⟨made, hmade⟩ := hmake (List.subset_append_left _ _)
  obtain ⟨made', hmade'⟩ := hmake (List.subset_append_right _ _)
  have hopen {v : CompiledUnit} {s : InstrumentSettings} (hs : s.reinstrument) :
      ¬v.IsSkipped s := by simp [IsSkipped, hs]
  have honce {s : InstrumentSettings} (hs : s.reinstrument) :
      (u.append added).instrumentInPlace s =
        (.ok ((u.append added).methods.countP Method.needsInstrumentation),
          (u.append added).withMade (made ++ made')) :=
    (instrumentInPlace_eq_ok (hopen hs)).2 ⟨_, mapM_append hmade hmade', rfl, rfl⟩
  by_cases hskipped : u.IsSkipped first
  · refine ⟨0, u, _, _, instrumentInPlace_of_skipped hskipped, honce hagain, ?_⟩
    rw [Nat.zero_add]
    exact honce hsettings
  · refine ⟨_, u.withMade made, added.countP Method.needsInstrumentation, _,
      (instrumentInPlace_eq_ok hskipped).2 ⟨made, hmade, rfl, rfl⟩,
      (instrumentInPlace_eq_ok (hopen hagain)).2 ⟨made ++ made', ?_, ?_, rfl⟩, ?_⟩
    · exact mapM_append (Method.mapM_instrument_of_no_need (countP_of_mapM hmade)) hmade'
    · simp only [append, withMade, List.countP_append, countP_of_mapM hmade, Nat.zero_add]
    · rw [withMade_append hmade, honce hsettings]
      simp only [append, List.countP_append]

/-- What instrumenting a unit does.  If it fails, the unit stays as it is.  If the unit isn't skipped,
exactly the methods that need it become resumable, and nothing is left to do afterwards.  Methods may
be added later as well as before. -/
theorem instrumentInPlace_methodwise (settings : InstrumentSettings) (u : CompiledUnit) :
    (∀ e u', u.instrumentInPlace settings = (.error e, u') → u' = u ∧ u.FailsWith e) ∧
    (u.IsSkipped settings → u.instrumentInPlace settings = (.ok 0, u)) ∧
    (¬u.IsSkipped settings → ∀ n u', u.instrumentInPlace settings = (.ok n, u') →
      u'.name = u.name ∧ List.Forall₂ (Method.Becomes u.name) u.methods u'.methods ∧
        n = u.methods.countP Method.needsInstrumentation ∧
        (u'.flags = if 0 < n then u.flags.union .instrumented else u.flags) ∧
        ∀ again, u'.instrumentInPlace again = (.ok 0, u')) ∧
    ∀ added first again, settings.reinstrument → again.reinstrument →
      (∀ d ∈ u.methods ++ added, d.needsInstrumentation → ∃ t, d.transform u.name = .ok t) →
      ∃ n₁ u₁ n₂ u', u.instrumentInPlace first = (.ok n₁, u₁) ∧
        (u₁.append added).instrumentInPlace again = (.ok n₂, u') ∧
        (u.append added).instrumentInPlace settings = (.ok (n₁ + n₂), u') := by
  refine ⟨?_, instrumentInPlace_of_skipped, ?_,
    fun added first again => instrumentInPlace_append⟩
  · intro e u' h
    obtain ⟨hsame, hfails⟩ := instrumentInPlace_eq_error h
    exact ⟨hsame, failsWith_of_mapM hfails⟩
  · intro hopen n u' h
    obtain ⟨made, hmade, rfl, rfl⟩ := (instrumentInPlace_eq_ok hopen).1 h
    refine ⟨rfl, ?_, rfl, ?_, ?_⟩
    · exact (Except.mapM_eq_ok.1 hmade).flip.imp fun _ _ => Method.instrument_iff_becomes.1
    · by_cases hnone : u.methods.countP Method.needsInstrumentation = 0
      · simp [withMade, hnone]
      · simp [withMade, hnone, Nat.pos_of_ne_zero hnone]
    · intro again
      exact instrumentInPlace_of_no_need (countP_of_mapM hmade)

/-- The sleeper becomes resumable, and so does another one that's added to its unit later. -/
theorem instrumentInPlace_methodwise_sleeper : ∃ u₁ u',
    sleeperUnit.instrumentInPlace .standard = (.ok 1, u₁) ∧
      (u₁.append [Method.sleeper]).instrumentInPlace ⟨true, true⟩ = (.ok 1, u') ∧
      (sleeperUnit.append [Method.sleeper]).instrumentInPlace ⟨true, true⟩ = (.ok 2, u') := by
  have succeeds : ∀ d ∈ sleeperUnit.methods ++ [Method.sleeper],
      d.needsInstrumentation → ∃ t, d.transform sleeperUnit.name = .ok t := by
    intro d hd _
    obtain rfl : d = Method.sleeper := by simpa [sleeperUnit] using hd
    exact exists_transform_sleeper
  obtain ⟨-, -, -, hparts⟩ := instrumentInPlace_methodwise ⟨true, true⟩ sleeperUnit
  obtain ⟨n₁, u₁, n₂, u', hfirst, hsecond, honce⟩ :=
    hparts [Method.sleeper] .standard ⟨true, true⟩ rfl rfl succeeds
  obtain ⟨-, -, hopen, -⟩ := instrumentInPlace_methodwise .standard sleeperUnit
  obtain ⟨-, -, hn₁, -⟩ := hopen (fun h => absurd h.1 (by decide)) n₁ u₁ hfirst
  obtain ⟨-, -, hopen, -⟩ :=
    instrumentInPlace_methodwise ⟨true, true⟩ (sleeperUnit.append [Method.sleeper])
  obtain ⟨-, -, hn, -⟩ := hopen (by simp [IsSkipped]) (n₁ + n₂) u' honce
  obtain rfl : n₁ = 1 := hn₁.trans (by decide)
  obtain rfl : n₂ = 1 := by
    have hcount : (sleeperUnit.append [Method.sleeper]).methods.countP
      Method.needsInstrumentation = 2 := by decide
    omega
  exact ⟨u₁, u', hfirst, hsecond, honce⟩

end CompiledUnit

end Resumable
