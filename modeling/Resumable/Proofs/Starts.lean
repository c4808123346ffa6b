import Resumable.Proofs.Shadows

/-!
# How calls start

A call of one method on machines with counterparts fails in the same way, gets to the same native,
or enters counterparts.
-/

namespace Resumable

namespace Machine

variable {m m₀ : Machine} {w : World} {owner name descriptor : String} {args : List Value}

/-- Arguments are accepted if each can be used where its type is expected. -/
theorem checkArguments_eq_ok {method : MethodRef} {kind : InvokeKind} :
    checkArguments w method kind args = .ok () ↔
      List.Forall₂ (fun v t => w.isInstance v t) args (argumentTypes method kind) := by
  have hlists (types : List ValueType) :
      (types.length = args.length && (args.zip types).all fun x => w.isInstance x.1 x.2) ↔
        List.Forall₂ (fun v t => w.isInstance v t) args types := by
    induction args generalizing types with
    | nil => cases types <;> simp
    | cons v args ih =>
        cases types with
        | nil => simp
        | cons t types =>
            rw [List.forall₂_cons, ← ih types]
            simp [and_left_comm]
  rw [← hlists, checkArguments]
  dsimp only
  split
  · rename_i hall
    simp only [hall]
  · rename_i hall
    simp only [reduceCtorEq, false_iff]
    exact hall

/-- The kind in which a call invokes its method. -/
def startKind (d : Method) : InvokeKind := if d.isStatic then .static else .virtual

theorem startKind_eq_static {d : Method} : d.isStatic ↔ startKind d = .static := by
  simp only [startKind]
  split <;> simp_all

/-- A call of a loaded method checks the arguments and invokes the method. -/
theorem start_eq {type : MethodType} {d : Method} (hparse : MethodType.parse descriptor = .ok type)
    (hd : m.method? ⟨owner, name, type⟩ = some d) :
    m.start w owner name descriptor args =
      match checkArguments w ⟨owner, name, type⟩ (startKind d) args with
      | .error cause => .failed cause [] w
      | .ok () =>
        match m.invoke 0 w (startKind d) ⟨owner, name, type⟩ args with
        | .failed cause w => .failed cause [] w
        | .returned result w => .over ⟨.ok result, w⟩
        | .entered a => .running ⟨w, 0, a, []⟩ := by
  simp only [start, hparse, hd]
  rfl

section

variable {u : World} {args' : List Value} {kind : InvokeKind} {method : MethodRef} {active : Nat}
  {a : Activation} {s : CallState}

/-- A method that's entered is entered in whatever world, and with whatever arguments that have a
receiver where these have one. -/
theorem enters_of_invoke (h : m.invoke active w kind method args = .entered a)
    (hnull : args'.head?.all Value.isNull = args.head?.all Value.isNull) (u : World) :
    ∃ d, m.method? method = some d ∧ d.hasBody ∧
      a = ⟨method.owner, d, 0, .entry args d.maxLocals.toNat⟩ ∧
      m.invoke active u kind method args' =
        .entered ⟨method.owner, d, 0, .entry args' d.maxLocals.toNat⟩ := by
  rcases m.invoke_cases active w kind method args with
    ⟨e, hinvoke, -⟩ | ⟨⟨outcome, u⟩, -, hinvoke⟩ | ⟨d, hd, hb, hk, hdepth, hnative, hinvoke⟩
  · rw [hinvoke] at h
    cases h
  · rw [hinvoke] at h
    cases outcome <;> cases h
  · rw [hinvoke] at h
    cases h
    refine ⟨d, hd, hb, rfl, ?_⟩
    unfold nativeOutcome? at hnative
    unfold invoke
    rw [hnull]
    by_cases hreceiver : kind = .virtual && args.head?.all Value.isNull
    · simp only [invoke, hreceiver, if_true] at hinvoke
      cases hinvoke
    · rw [if_neg hreceiver] at hnative ⊢
      rw [Option.map_eq_none_iff.1 hnative, hd]
      simp only [hb, not_true_eq_false, if_false, hk, ne_eq, Nat.not_le.2 hdepth]

/-- True if the second value can stand in for the first one, in another world. -/
def Replaces (w u : World) (v v' : Value) : Prop :=
  (∀ type, w.isInstance v type → u.isInstance v' type) ∧ v'.isNull = v.isNull

/-- A call that gets to run gets to run again with arguments of the same types. -/
theorem start_again (h : m.start w owner name descriptor args = .running s)
    (hargs : List.Forall₂ (Replaces w u) args args') :
    ∃ type d, MethodType.parse descriptor = .ok type ∧ m.method? ⟨owner, name, type⟩ = some d ∧
      d.hasBody ∧ List.Forall₂ (fun v t => u.isInstance v t) args'
        (argumentTypes ⟨owner, name, type⟩ (startKind d)) ∧
      s = ⟨w, 0, ⟨owner, d, 0, .entry args d.maxLocals.toNat⟩, []⟩ ∧
      m.start u owner name descriptor args' =
        .running ⟨u, 0, ⟨owner, d, 0, .entry args' d.maxLocals.toNat⟩, []⟩ := by
  cases hparse : MethodType.parse descriptor with
  | error cause => simp [start, hparse, CallStatus.failed] at h
  | ok type =>
      cases hd : m.method? ⟨owner, name, type⟩ with
      | none => simp [start, hparse, hd, CallStatus.failed] at h
      | some d =>
          rw [start_eq hparse hd] at h
          cases hcheck : checkArguments w ⟨owner, name, type⟩ (startKind d) args with
          | error cause =>
              rw [hcheck] at h
              cases h
          | ok =>
              rw [hcheck] at h
              dsimp only at h
              cases hinvoke : m.invoke 0 w (startKind d) ⟨owner, name, type⟩ args with
              | failed | returned =>
                  rw [hinvoke] at h
                  cases h
              | entered a =>
                  rw [hinvoke] at h
                  cases h
                  have hnull : args'.head?.all Value.isNull = args.head?.all Value.isNull := by
                    cases hargs with
                    | nil => rfl
                    | cons hv _ => exact hv.2
                  obtain ⟨d', hd', hb, rfl, hagain⟩ := enters_of_invoke hinvoke hnull u
                  obtain rfl : d' = d := Option.some.inj (hd'.symm.trans hd)
                  have hfits : List.Forall₂ (fun v t => u.isInstance v t) args'
                      (argumentTypes ⟨owner, name, type⟩ (startKind d')) := by
                    have hchecked := checkArguments_eq_ok.1 hcheck
                    refine List.forall₂_iff_get.2
                      ⟨hargs.length_eq.symm.trans hchecked.length_eq, fun k h₁ h₂ => ?_⟩
                    have h₀ : k < args.length := hargs.length_eq ▸ h₁
                    exact ((List.forall₂_iff_get.1 hargs).2 k h₀ h₁).1 _
                      ((List.forall₂_iff_get.1 hchecked).2 k h₀ h₂)
                  refine ⟨type, d', rfl, hd, hb, hfits, rfl, ?_⟩
                  rw [start_eq hparse hd, checkArguments_eq_ok.2 hfits]
                  simp only [hagain]

theorem replaces_refl (w : World) (v : Value) : Replaces w w v v := ⟨fun _ h => h, rfl⟩

/-- A call that gets to run starts at the beginning of a loaded method, with nothing else active. -/
theorem exists_of_start (h : m.start w owner name descriptor args = .running s) :
    ∃ type d, m.method? ⟨owner, name, type⟩ = some d ∧ d.hasBody ∧
      s = ⟨w, 0, ⟨owner, d, 0, .entry args d.maxLocals.toNat⟩, []⟩ := by
  obtain ⟨type, d, -, hd, hb, -, hs, -⟩ :=
    start_again h (List.forall₂_same.2 fun v _ => replaces_refl w v)
  exact ⟨type, d, hd, hb, hs⟩

theorem loaded_start (h : m.start w owner name descriptor args = .running s) : s.Loaded m := by
  obtain ⟨type, d, hd, -, rfl⟩ := exists_of_start h
  intro a ha
  obtain rfl := List.mem_singleton.1 ha
  exact Activation.loaded_of_method? hd _ _

theorem hasBody_of_start (h : m.start w owner name descriptor args = .running s) :
    ∀ a ∈ s.active, a.method.hasBody := by
  obtain ⟨type, d, -, hb, rfl⟩ := exists_of_start h
  exact List.forall_mem_singleton.2 hb

theorem callers_of_start (h : m.start w owner name descriptor args = .running s) :
    s.callers = [] := by
  obtain ⟨type, d, -, -, rfl⟩ := exists_of_start h
  rfl

theorem executed_of_start (h : m.start w owner name descriptor args = .running s) :
    s.executed = 0 := by
  obtain ⟨type, d, -, -, rfl⟩ := exists_of_start h
  rfl

theorem world_of_start (h : m.start w owner name descriptor args = .running s) : s.world = w := by
  obtain ⟨type, d, -, -, rfl⟩ := exists_of_start h
  rfl

end

/-- Both calls fail in the same way, get to the same native, or enter counterparts. -/
theorem MadeFrom.start_cases (h : m.MadeFrom m₀) (w : World)
    (owner name descriptor : String) (args : List Value) :
    (∃ e, m₀.start w owner name descriptor args = .failed e [] w ∧
        m.start w owner name descriptor args = .failed e [] w) ∨
      (∃ type native, MethodType.parse descriptor = .ok type ∧
        m₀.native? ⟨owner, name, type⟩ = some native ∧
        m.start w owner name descriptor args = m₀.start w owner name descriptor args ∧
        m₀.start w owner name descriptor args =
          match native w args with
          | (.ok result, u) => .over ⟨.ok result, u⟩
          | (.error cause, u) => .failed cause [] u) ∨
      ∃ type d d', MethodType.parse descriptor = .ok type ∧ d'.Counterpart owner d ∧
        m₀.method? ⟨owner, name, type⟩ = some d ∧ m.method? ⟨owner, name, type⟩ = some d' ∧
        d.hasBody ∧ List.Forall₂ (fun v t => w.isInstance v t) args
          (argumentTypes ⟨owner, name, type⟩ (startKind d)) ∧
        m₀.start w owner name descriptor args =
          .running ⟨w, 0, ⟨owner, d, 0, .entry args d.maxLocals.toNat⟩, []⟩ ∧
        m.start w owner name descriptor args =
          .running ⟨w, 0, ⟨owner, d', 0, .entry args d'.maxLocals.toNat⟩, []⟩ := by
  cases hparse : MethodType.parse descriptor with
  | error cause => exact .inl ⟨.invalidDescriptor descriptor cause, by simp [start, hparse]⟩
  | ok type =>
      have hrel := h.rel_method? ⟨owner, name, type⟩
      generalize hd : m₀.method? ⟨owner, name, type⟩ = d? at hrel
      generalize hd' : m.method? ⟨owner, name, type⟩ = d'? at hrel
      cases hrel with
      | none => exact .inl ⟨.unknownMethod ⟨owner, name, type⟩, by simp [start, hparse, hd, hd']⟩
      | @some d' d hcounterpart =>
          have hkind : startKind d' = startKind d := by simp only [startKind, hcounterpart.isStatic]
          rw [start_eq hparse hd, start_eq hparse hd', hkind]
          cases hcheck : checkArguments w ⟨owner, name, type⟩ (startKind d) args with
          | error e => exact .inl ⟨e, rfl, rfl⟩
          | ok =>
              dsimp only
              rcases h.invoke_cases 0 w (startKind d) ⟨owner, name, type⟩ args with
                ⟨e, hinvoke₀, hinvoke⟩ | ⟨native, hn, hinvoke, hinvoke₀⟩ |
                ⟨d₁, d₁', -, hd₁, hd₁', hb, -, hinvoke⟩
              · exact .inl ⟨e, by rw [hinvoke₀], by rw [hinvoke]⟩
              · refine .inr (.inl ⟨type, native, rfl, hn, by rw [hinvoke], ?_⟩)
                rw [hinvoke₀]
                rcases native w args with ⟨e | result, u⟩ <;> rfl
              · obtain rfl : d₁ = d := Option.some.inj (hd₁.symm.trans hd)
                obtain rfl : d₁' = d' := Option.some.inj (hd₁'.symm.trans hd')
                rw [(hinvoke w).1, (hinvoke w).2]
                exact .inr (.inr ⟨type, d₁, d₁', rfl, hcounterpart, hd, hd', hb,
                  checkArguments_eq_ok.1 hcheck, rfl, rfl⟩)

variable {held cells known : Nat → Prop}

/-- The arguments of a method that's entered fill locals of its own only. -/
theorem length_entry_of_fits (hverified : m.Verified) {type : MethodType} {d : Method}
    (hd : m.method? ⟨owner, name, type⟩ = some d) (hb : d.hasBody)
    (hargs : List.Forall₂ (fun v t => w.isInstance v t) args
      (argumentTypes ⟨owner, name, type⟩ (startKind d))) :
    (ValueFrame.entry args d.maxLocals.toNat).locals.length = d.maxLocals.toNat :=
  (runs_of_entered hverified (hargs.imp fun v _ h => ⟨h, v.known_all⟩) hd hb
    startKind_eq_static).length_locals

/-- A method that's entered with known arguments gets at known objects only. -/
theorem tame_entered (hverified : m₀.Verified) {type : MethodType} {d : Method}
    (hw : w.Offers held known args) (hd : m₀.method? ⟨owner, name, type⟩ = some d) (hb : d.hasBody)
    (hargs : List.Forall₂ (fun v t => w.isInstance v t) args
      (argumentTypes ⟨owner, name, type⟩ (startKind d))) :
    CallState.Tame known ⟨w, 0, ⟨owner, d, 0, .entry args d.maxLocals.toNat⟩, []⟩ := by
  have hruns := @runs_of_entered m₀ (w.OrFresh known) w (startKind d) ⟨owner, name, type⟩ args d
    hverified (List.forall₂_iff_get.2
    ⟨hargs.length_eq, fun k h₁ h₂ => ⟨(List.forall₂_iff_get.1 hargs).2 k h₁ h₂,
      (hw.args _ (List.get_mem _ _)).mono fun _ => .inl⟩⟩) hd hb startKind_eq_static
  have hclosed : CallState.Closed known
      ⟨w, 0, ⟨owner, d, 0, .entry args d.maxLocals.toNat⟩, []⟩ :=
    ⟨World.closed_iff.1 hw.tidy.closed, @renamed_entered _ args args ⟨owner, name, type⟩ d
      (List.forall₂_same.2 fun v hv => Value.known_iff.1 (hw.args v hv)), .nil⟩
  exact hclosed.tame hw.tidy.elements hruns trivial

/-- Counterparts that are entered with arguments of their types run next to each other, once the
second one has got to its first block. -/
theorem mirrors_start (hverified : m₀.Verified) (hm : m.Equipped) {type : MethodType} {d d' : Method}
    (hcounterpart : d'.Counterpart owner d)
    (hd : m₀.method? ⟨owner, name, type⟩ = some d) (hb : d.hasBody)
    (hargs : List.Forall₂ (fun v t => w.isInstance v t) args
      (argumentTypes ⟨owner, name, type⟩ (startKind d)))
    (hcapability : type.isEligible → ∃ n c, cells n ∧ w.Stands n c ∧
      capabilityArgument? (startKind d) args = some c)
    (normal : ∀ n, cells n → (w.cell n).mode = Capability.normal) :
    ∃ trail s, m.Advances ⟨w, 0, ⟨owner, d', 0, .entry args d'.maxLocals.toNat⟩, []⟩ trail s ∧
      (∀ t ∈ trail, t.current.Calm) ∧
      s.Mirrors m cells known ⟨w, 0, ⟨owner, d, 0, .entry args d.maxLocals.toNat⟩, []⟩ := by
  obtain ⟨-, -, -, -, -, htype⟩ := method?_eq_some hd
  obtain ⟨trail, executed, a, hadvances, hcalm, hbegins, -, -⟩ :=
    Activation.begins_entered hm hcounterpart (length_entry_of_fits hverified hd hb hargs)
      (fun hmarked => @Method.Counterpart.capability_entry d d' ⟨owner, name, type⟩ _ _ _ _
        hcounterpart hmarked htype startKind_eq_static hargs hcapability) normal [] 0
  exact ⟨trail, _, hadvances, hcalm, rfl, hbegins, .nil _ _, normal⟩

end Machine

end Resumable
