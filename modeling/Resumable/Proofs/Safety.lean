import Resumable.Proofs.Execution
import Resumable.Proofs.Loading

/-!
# Verified code can't go wrong

In a call on a machine whose units have all been verified, every frame conforms to the analyzed
frame at its position, and so no instruction is refused.  The invariant covers the running method
and the methods that wait for it, each of which is ready to take what the method that it has called
returns.

Natives are free to do what they want as long as their results are of the types that their
descriptors promise, and arrays hold what they should hold afterwards.
-/

namespace Resumable

/-- What natives have to keep to: a result has the promised type, and the world stays sound. -/
def World.Keeps (known : Nat → Prop) (w : World) (returns : Option ValueType)
    (outcome : Except MachineError (Option Value) × World) : Prop :=
  ∀ result, outcome.1 = .ok result →
    outcome.2.Promised result returns ∧ Value.KnownResult known result ∧
      outcome.2.Sound known ∧ w.Evolves outcome.2

namespace Activation

variable {known : Nat → Prop} {w w' : World} {a : Activation}

/-- True if the method has passed analysis, and its frame conforms to the one at its position. -/
def Runs (known : Nat → Prop) (w : World) (a : Activation) : Prop :=
  ∃ frames g, a.method.analyze a.owner = .ok frames ∧ frames.at? a.position = some g ∧
    a.frame.Conforms known w g

/-- True if the method has passed analysis, and its frame with a result of the given type conforms
to the frame at the next position. -/
def Waits (known : Nat → Prop) (w : World) (returns : Option ValueType) (a : Activation) : Prop :=
  ∃ frames g locals rest, a.method.analyze a.owner = .ok frames ∧
    frames.at? (a.position + 1) = some g ∧
    Frame.Below ⟨locals, (returns.map FrameValue.ofType).toList ++ rest⟩ g ∧
    a.frame.Conforms known w ⟨locals, rest⟩

/-- A method that runs has the locals that it's declared with. -/
theorem Runs.length_locals (h : a.Runs known w) :
    a.frame.locals.length = a.method.maxLocals.toNat := by
  obtain ⟨frames, g, hframes, hg, hf⟩ := h
  rw [hf.locals.length_eq]
  exact ((Method.analyzed_of_analyze hframes).wellFormed _ g hg).localsLength

theorem Runs.evolves (h : a.Runs known w) (hw : w.Evolves w') : a.Runs known w' := by
  obtain ⟨frames, g, hframes, hg, hf⟩ := h
  exact ⟨frames, g, hframes, hg, hf.evolves hw⟩

theorem Waits.evolves {returns : Option ValueType} (h : a.Waits known w returns)
    (hw : w.Evolves w') : a.Waits known w' returns := by
  obtain ⟨frames, g, locals, rest, hframes, hg, hbelow, hf⟩ := h
  exact ⟨frames, g, locals, rest, hframes, hg, hbelow, hf.evolves hw⟩

/-- A method that waits goes on with what it has waited for. -/
theorem Waits.resumed {returns : Option ValueType} {result : Option Value}
    (h : a.Waits known w returns) (hr : w.Promised result returns)
    (hk : Value.KnownResult known result) : (CallState.resumed a result).Runs known w := by
  obtain ⟨frames, g, locals, rest, hframes, hg, hbelow, hf⟩ := h
  have hwf := (Method.analyzed_of_analyze hframes).wellFormed _ g hg
  refine ⟨frames, g, hframes, hg, ValueFrame.Conforms.mono ?_ hbelow hwf⟩
  cases result with
  | none =>
      cases returns with
      | none => exact hf
      | some type => exact hr.elim
  | some v =>
      cases returns with
      | none => exact hr.elim
      | some type => exact ⟨hf.locals, .cons (fun _ => ⟨World.has_ofType.2 hr, hk v rfl⟩) hf.stack⟩

end Activation

namespace CallState

variable {known : Nat → Prop} {w w' : World}

/-- True if each method waits for what the one above it returns, the topmost for a result of the
given type. -/
def Chain (known : Nat → Prop) (w : World) : Option ValueType → List Activation → Prop
  | _, [] => True
  | returns, a :: callers =>
    a.Waits known w returns ∧ Chain known w a.method.type.returns callers

theorem Chain.evolves {returns : Option ValueType} {callers : List Activation}
    (h : Chain known w returns callers) (hw : w.Evolves w') : Chain known w' returns callers := by
  induction callers generalizing returns with
  | nil => trivial
  | cons a callers ih => exact ⟨h.1.evolves hw, ih h.2⟩

/-- The invariant of calls. -/
structure Typed (known : Nat → Prop) (s : CallState) : Prop where
  world : s.world.Sound known
  runs : s.current.Runs known s.world
  chain : Chain known s.world s.current.method.type.returns s.callers

/-- The invocation that the next step makes, if it makes one. -/
def invocation? (s : CallState) : Option (InvokeKind × MethodRef × List Value) :=
  (s.current.method.body.get? s.current.position).bind fun i =>
    match s.current.frame.execute s.world i with
    | .ok (.call kind method args, _, _) => some (kind, method, args)
    | _ => none

end CallState

/-- The invariant, of a call that goes on. -/
def CallStatus.Typed (known : Nat → Prop) : CallStatus → Prop
  | .running s => s.Typed known
  | .over _ => True

namespace Machine

variable {m : Machine} {known : Nat → Prop} {w : World} {s t : CallState} {kind : InvokeKind}
  {method : MethodRef} {args : List Value}

/-- What a native says to an invocation, if it gets to one. -/
def nativeOutcome? (m : Machine) (w : World) (kind : InvokeKind) (method : MethodRef)
    (args : List Value) : Option (Except MachineError (Option Value) × World) :=
  if kind = .virtual && args.head?.all Value.isNull then none
  else (m.native? method).map fun native => native w args

/-- The native that the next step calls, if it calls one, and what it says. -/
def nativeStep? (m : Machine) (s : CallState) :
    Option (MethodRef × Except MachineError (Option Value) × World) :=
  s.invocation?.bind fun (kind, method, args) =>
    (m.nativeOutcome? s.world kind method args).map fun outcome => (method, outcome)

/-- Where an invocation leads: it fails without a native's doing, a native runs, or a method with a
body is entered. -/
theorem invoke_cases (m : Machine) (active : Nat) (w : World) (kind : InvokeKind)
    (method : MethodRef) (args : List Value) :
    (∃ e, m.invoke active w kind method args = .failed e w ∧ e.isTypeError = false ∧
        m.nativeOutcome? w kind method args = none) ∨
      (∃ outcome, m.nativeOutcome? w kind method args = some outcome ∧
        m.invoke active w kind method args = match outcome with
          | (.ok result, w) => .returned result w
          | (.error cause, w) => .failed cause w) ∨
      ∃ declared, m.method? method = some declared ∧ declared.hasBody ∧
        (declared.isStatic ↔ kind = .static) ∧ active < m.limits.callDepth ∧
        m.nativeOutcome? w kind method args = none ∧
        m.invoke active w kind method args =
          .entered ⟨method.owner, declared, 0, .entry args declared.maxLocals.toNat⟩ := by
  simp only [invoke, nativeOutcome?]
  split
  · exact .inl ⟨_, rfl, rfl, rfl⟩
  · cases hn : m.native? method with
    | some native =>
        refine .inr (.inl ⟨_, rfl, ?_⟩)
        rcases native w args with ⟨result | cause, w'⟩ <;> rfl
    | none =>
        cases hd : m.method? method with
        | none => exact .inl ⟨_, rfl, rfl, rfl⟩
        | some declared =>
            dsimp only
            split
            · exact .inl ⟨_, rfl, rfl, rfl⟩
            · split
              · exact .inl ⟨_, rfl, rfl, rfl⟩
              · split
                · exact .inl ⟨_, rfl, rfl, rfl⟩
                · rename_i hb hk hdepth
                  exact .inr (.inr ⟨declared, rfl, by simpa using hb, by simpa using hk,
                    by simpa using hdepth, rfl, rfl⟩)

/-- The locals with which a call starts are laid out as its argument types are. -/
theorem entryLocals_eq (owner : String) {declared : Method} {kind : InvokeKind}
    (howner : method.owner = owner) (ht : declared.type = method.type)
    (hk : declared.isStatic ↔ kind = .static) :
    declared.entryLocals owner = (argumentTypes method kind).flatMap fun type =>
      let v := FrameValue.ofType type
      if v.isWide then [v, .top] else [v] := by
  simp only [Method.entryLocals, ht]
  cases kind with
  | static =>
      have hs : declared.isStatic = true := hk.2 rfl
      simp [hs, argumentTypes]
  | virtual =>
      have hs : declared.isStatic = false := by simpa using hk
      simp [hs, argumentTypes, howner, FrameValue.ofType, FrameValue.isWide]

/-- The arguments of an invocation conform to the frame at the method's entry. -/
theorem conforms_entry {declared : Method} {entry : Frame}
    (hargs : List.Forall₂ (fun v t => w.isInstance v t ∧ v.Known known) args
      (argumentTypes method kind))
    (ht : declared.type = method.type) (hk : declared.isStatic ↔ kind = .static)
    (he : declared.entryFrame method.owner = .ok entry) :
    (ValueFrame.entry args declared.maxLocals.toNat).Conforms known w entry := by
  have hlocals := entryLocals_eq method.owner rfl ht hk
  simp only [Method.entryFrame] at he
  split at he
  · cases he
  · cases he
    rw [hlocals]
    generalize argumentTypes method kind = types at hargs
    have hslots : List.Forall₂ (w.Fits known)
        (args.flatMap fun v => if v.isWide then [v, .null] else [v])
        (types.flatMap fun type =>
          let v := FrameValue.ofType type
          if v.isWide then [v, .top] else [v]) := by
      induction hargs with
      | nil => exact .nil
      | @cons v t args types hv _ ih =>
          simp only [List.flatMap_cons]
          refine forall₂_append ?_ ih
          have hhas := World.has_ofType.2 hv.1
          have hfits : w.Fits known v (.ofType t) := fun _ => ⟨hhas, hv.2⟩
          rw [hhas.isWide (FrameValue.ofType_ne_top t)]
          split
          · exact .cons hfits (.cons (fun h => absurd rfl h) .nil)
          · exact .cons hfits .nil
    refine ⟨forall₂_append hslots ?_, .nil⟩
    rw [hslots.length_eq]
    generalize declared.maxLocals.toNat - _ = n
    induction n with
    | zero => exact .nil
    | succ n ih => exact .cons (fun h => absurd rfl h) ih

/-- A method that's entered with arguments of its types runs. -/
theorem runs_of_entered {declared : Method} (hm : m.Verified)
    (hargs : List.Forall₂ (fun v t => w.isInstance v t ∧ v.Known known) args
      (argumentTypes method kind))
    (hd : m.method? method = some declared) (hb : declared.hasBody)
    (hk : declared.isStatic ↔ kind = .static) :
    Activation.Runs known w
      ⟨method.owner, declared, 0, .entry args declared.maxLocals.toNat⟩ := by
  obtain ⟨-, -, -, -, -, ht⟩ := method?_eq_some hd
  obtain ⟨frames, hframes⟩ := hm method declared hd hb
  have analyzed := Method.analyzed_of_analyze hframes
  obtain ⟨entry, hentry, f, hf, hbelow⟩ := analyzed.entry
  refine ⟨frames, f, hframes, hf, ?_⟩
  exact (conforms_entry hargs ht hk hentry).mono hbelow (analyzed.wellFormed 0 f hf)

/-- The type error with which a step ends a call, if it does, is a native's own. -/
def TypeErrorOnlyFromNative (m : Machine) (s : CallState) : CallStatus → Prop
  | .running _ => True
  | .over c => ∀ e, c.result = .error e → e.cause.isTypeError →
      ∃ method w, m.nativeStep? s = some (method, .error e.cause, w)

/-- What execution goes on to in a method that runs is one of its positions, with a frame above the
one that the instruction leaves. -/
theorem runs_of_foreseen {a : Activation} {f : ValueFrame} {g : Frame} {frames : Frames}
    {q : Nat} (hframes : a.method.analyze a.owner = .ok frames)
    (stable : ∀ q, a.method.body.Leads a.position q → frames.Admits q g)
    (hq : a.method.body.Leads a.position q) (hf : f.Conforms known w g) :
    Activation.Runs known w { a with position := q, frame := f } := by
  obtain ⟨g', hg', hbelow⟩ := stable q hq
  exact ⟨frames, g', hframes, hg',
    hf.mono hbelow ((Method.analyzed_of_analyze hframes).wellFormed q g' hg')⟩

theorem typed_failed {e : MachineError} (he : e.isTypeError = false) (active : List Activation)
    (w : World) : (CallStatus.failed e active w).Typed known ∧
      TypeErrorOnlyFromNative m s (CallStatus.failed e active w) := by
  refine ⟨trivial, fun e' h ht => ?_⟩
  cases h
  rw [he] at ht
  cases ht

/-- An invocation with arguments of its types, made by the step from `s`.  In `t` the arguments have
been taken from the stack, and the running method is ready for the result. -/
theorem typed_follow_call (hm : m.Verified) (hw : t.world.Sound known)
    (waits : t.current.Waits known t.world method.type.returns)
    (hchain : CallState.Chain known t.world t.current.method.type.returns t.callers)
    (fit : List.Forall₂ (fun v type => t.world.isInstance v type ∧ v.Known known) args
      (argumentTypes method kind))
    (hstep : m.nativeStep? s =
      (m.nativeOutcome? t.world kind method args).map fun outcome => (method, outcome))
    (hnative : ∀ outcome, m.nativeStep? s = some (method, outcome) →
      t.world.Keeps known method.type.returns outcome) :
    (m.follow t (.call kind method args)).Typed known ∧
      TypeErrorOnlyFromNative m s (m.follow t (.call kind method args)) := by
  simp only [follow]
  rcases m.invoke_cases (t.callers.length + 1) t.world kind method args with
    ⟨e, hinvoke, he, -⟩ | ⟨outcome, houtcome, hinvoke⟩ | ⟨declared, hd, hb, hk, -, -, hinvoke⟩
  · rw [hinvoke]
    exact typed_failed he _ _
  · rw [houtcome, Option.map_some] at hstep
    obtain ⟨answer, u⟩ := outcome
    rw [hinvoke]
    cases answer with
    | error cause =>
        refine ⟨trivial, fun e h _ => ?_⟩
        cases h
        exact ⟨method, u, hstep⟩
    | ok result =>
        obtain ⟨hpromised, hknown, hu, hevolves⟩ := hnative _ hstep result rfl
        exact ⟨⟨hu, (waits.evolves hevolves).resumed hpromised hknown, hchain.evolves hevolves⟩,
          trivial⟩
  · rw [hinvoke]
    obtain ⟨-, -, -, -, -, htype⟩ := method?_eq_some hd
    refine ⟨⟨hw, runs_of_entered hm fit hd hb hk, ?_⟩, trivial⟩
    exact ⟨htype ▸ waits, hchain⟩

/-- Every step keeps the invariant, and ends the call with no type error but a native's own. -/
theorem typed_step (hm : m.Verified) (hs : s.Typed known)
    (hnative : ∀ method outcome, m.nativeStep? s = some (method, outcome) →
      s.world.Keeps known method.type.returns outcome) :
    (m.step s).Typed known ∧ TypeErrorOnlyFromNative m s (m.step s) := by
  obtain ⟨w, executed, a, callers⟩ := s
  obtain ⟨hw, ⟨frames, g, hframes, hg, hf⟩, hchain⟩ := hs
  dsimp only at hw hframes hg hf hchain hnative
  have analyzed := Method.analyzed_of_analyze hframes
  obtain ⟨i, g', hi, htransfer, hstable⟩ := analyzed.stable _ g hg
  have hexecutes := ValueFrame.executes_of_rule (Method.rule_of_transfer htransfer)
    (analyzed.wellFormed _ g hg) hw hf
  have executes : (step.execute m ⟨w, executed, a, callers⟩ i).Typed known ∧
      TypeErrorOnlyFromNative m ⟨w, executed, a, callers⟩
        (step.execute m ⟨w, executed, a, callers⟩ i) := by
    simp only [ValueFrame.Executes] at hexecutes
    simp only [step.execute]
    cases hexecute : a.frame.execute w i with
    | error e =>
        rw [hexecute] at hexecutes
        exact typed_failed hexecutes _ _
    | ok outcome =>
        obtain ⟨flow, f', w'⟩ := outcome
        rw [hexecute] at hexecutes
        obtain ⟨hw', hevolves, hforeseen⟩ := hexecutes
        have hchain' := hchain.evolves hevolves
        cases hforeseen with
        | proceed falls conforms =>
            exact ⟨⟨hw', runs_of_foreseen (a := a) hframes hstable (.next hi falls) conforms,
              hchain'⟩, trivial⟩
        | @jump target listed conforms =>
            obtain ⟨places, hplaces⟩ := analyzed.labels
            obtain ⟨q, hq⟩ := Body.position?_of_mem_targets hplaces hi listed
            simp only [follow, hq]
            exact ⟨⟨hw', runs_of_foreseen (a := a) hframes hstable (.jump hi listed hq) conforms,
              hchain'⟩, trivial⟩
        | leave promised hknown =>
            simp only [follow, CallState.leave]
            cases callers with
            | nil => exact ⟨trivial, fun e h => by cases h⟩
            | cons caller callers =>
                exact ⟨⟨hw', hchain'.1.resumed promised hknown, hchain'.2⟩, trivial⟩
        | @call kind method args rest here fit stack conforms =>
            subst here
            have hcall : CallState.invocation? ⟨w, executed, a, callers⟩ =
                some (kind, method, args) := by
              simp [CallState.invocation?, hi, hexecute]
            obtain rfl : w' = w := ValueFrame.world_of_invoke hexecute
            obtain ⟨g₂, hg₂, hbelow⟩ := hstable _ (.next hi rfl)
            have waits : Activation.Waits known w' method.type.returns { a with frame := f' } :=
              ⟨frames, g₂, g'.locals, rest, hframes, hg₂, by rw [← stack]; exact hbelow, conforms⟩
            exact typed_follow_call (t := ⟨w', executed + 1, { a with frame := f' }, callers⟩) hm hw'
              waits hchain fit (by simp [nativeStep?, hcall]) fun outcome => hnative method outcome
  simp only [step, hi]
  cases m.limits.instructions with
  | none => exact executes
  | some limit =>
      dsimp only
      split
      · exact typed_failed rfl _ _
      · exact executes

end Machine

/-- True if the elements of every array are instances of its element type. -/
def World.ArraysSound (w : World) : Prop :=
  ∀ a element values, w.object? a = some (.array element values) →
    ∀ v ∈ values.toList, w.isInstance v element

/-- The number of slots that the operand stack takes. -/
def ValueFrame.stackSlots (f : ValueFrame) : Nat :=
  f.stack.foldr (fun v n => (if v.isWide then 2 else 1) + n) 0

theorem Value.known_all (v : Value) : v.Known fun _ => True := by
  cases v <;> trivial

theorem World.sound_all_iff {w : World} : w.Sound (fun _ => True) ↔ w.ArraysSound :=
  ⟨fun h a element values ho => h.elements a element values trivial ho,
    fun h => ⟨fun _ _ => trivial, fun a element values _ ho => h a element values ho,
      fun _ _ _ _ v _ => v.known_all⟩⟩

/-- A frame that conforms takes as many slots as the analyzed one. -/
theorem ValueFrame.Conforms.stackSlots {known : Nat → Prop} {w : World} {f : ValueFrame} {g : Frame}
    (h : f.Conforms known w g) (hk : ∀ v ∈ g.stack, v ≠ .top) : f.stackSlots = g.stackSlots := by
  simp only [ValueFrame.stackSlots, Frame.stackSlots]
  have hs := h.stack
  generalize f.stack = values at hs
  generalize g.stack = types at hs hk
  induction hs with
  | nil => rfl
  | cons hv _ ih =>
      rw [List.forall_mem_cons] at hk
      simp only [List.foldr_cons, ih hk.2, (hv hk.1).1.isWide hk.1, FrameValue.slots]

namespace Machine

variable {m : Machine} {known : Nat → Prop} {w : World} {s t : CallState} {args : List Value}

/-- True if the native that the next step calls, if it calls one, fails or keeps its promise: its
result is of the promised type, and arrays hold what they should.  Objects stay what they are. -/
def KeepsPromise (m : Machine) (s : CallState) : Prop :=
  ∀ method result w, m.nativeStep? s = some (method, .ok result, w) →
    w.Promised result method.type.returns ∧ w.ArraysSound ∧ s.world.Evolves w

/-- True if a call gets to the state, and all natives have kept their promises until then. -/
inductive Visits (m : Machine) : CallStatus → CallState → Prop
  | start (s : CallState) : Visits m (.running s) s
  | step {status : CallStatus} {s t : CallState} : Visits m status s → m.KeepsPromise s →
      m.step s = .running t → Visits m status t

/-- A call whose arguments are instances of their types starts with the invariant. -/
theorem typed_start (hm : m.Verified) (hw : w.Sound known) {owner name descriptor : String}
    (hk : ∀ v ∈ args, v.Known known)
    (h : m.start w owner name descriptor args = .running s) : s.Typed known := by
  simp only [start] at h
  split at h
  · cases h
  · rename_i type _
    split at h
    · cases h
    · rename_i declared hd
      split at h
      · cases h
      · rename_i hcheck
        generalize hkind : (if declared.isStatic then InvokeKind.static else .virtual) = kind
          at h hcheck
        have hargs : List.Forall₂ (fun v t => w.isInstance v t ∧ v.Known known) args
            (argumentTypes ⟨owner, name, type⟩ kind) := by
          simp only [checkArguments] at hcheck
          split at hcheck
          · rename_i hall
            simp only [Bool.and_eq_true, decide_eq_true_eq, List.all_eq_true] at hall
            refine List.forall₂_iff_get.2 ⟨hall.1.symm, fun n h₁ h₂ => ⟨?_, ?_⟩⟩
            · refine hall.2 (args[n], (argumentTypes ⟨owner, name, type⟩ kind)[n]) ?_
              exact List.mem_of_getElem? (List.getElem?_zip_eq_some.2
                ⟨List.getElem?_eq_getElem h₁, List.getElem?_eq_getElem h₂⟩)
            · exact hk _ (List.get_mem _ _)
          · cases hcheck
        rcases m.invoke_cases 0 w kind ⟨owner, name, type⟩ args with
          ⟨e, hinvoke, -⟩ | ⟨⟨outcome, w'⟩, -, hinvoke⟩ | ⟨declared', hd', hb, hk', -, -, hinvoke⟩
        · rw [hinvoke] at h
          cases h
        · rw [hinvoke] at h
          cases outcome <;> cases h
        · rw [hinvoke] at h
          cases h
          exact ⟨hw, runs_of_entered hm hargs hd' hb hk', trivial⟩

/-- If a call fails at its start with a type error then the method is a native. -/
theorem typeError_of_start {owner name descriptor : String} {c : Completion} {e : CallError}
    (h : m.start w owner name descriptor args = .over c) (hc : c.result = .error e)
    (he : e.cause.isTypeError) :
    ∃ type kind w', MethodType.parse descriptor = .ok type ∧
      m.nativeOutcome? w kind ⟨owner, name, type⟩ args = some (.error e.cause, w') := by
  simp only [start] at h
  split at h
  · cases h
    cases hc
    cases he
  · rename_i type htype
    split at h
    · cases h
      cases hc
      cases he
    · rename_i declared hd
      generalize (if declared.isStatic then InvokeKind.static else .virtual) = kind at h
      split at h
      · rename_i cause hcheck
        cases h
        cases hc
        simp only [checkArguments] at hcheck
        split at hcheck
        · cases hcheck
        · cases hcheck
          cases he
      · rcases m.invoke_cases 0 w kind ⟨owner, name, type⟩ args with
          ⟨e', hinvoke, he', -⟩ | ⟨⟨outcome, w'⟩, houtcome, hinvoke⟩ |
          ⟨declared', -, -, -, -, -, hinvoke⟩
        · rw [hinvoke] at h
          cases h
          cases hc
          rw [he'] at he
          cases he
        · rw [hinvoke] at h
          cases outcome with
          | ok result =>
              cases h
              cases hc
          | error cause =>
              cases h
              cases hc
              exact ⟨type, kind, w', htype, houtcome⟩
        · rw [hinvoke] at h
          cases h

/-- The invariant holds wherever a call gets to. -/
theorem Visits.typed {status : CallStatus} (hm : m.Verified)
    (hstart : ∀ s, status = .running s → s.Typed fun _ => True) (h : m.Visits status s) :
    s.Typed fun _ => True := by
  induction h with
  | start s => exact hstart s rfl
  | @step status s t _ hkeeps hstep ih =>
      have := (typed_step hm (ih hstart) fun method outcome houtcome result hresult => ?_).1
      · rwa [hstep] at this
      · obtain ⟨outcome, w⟩ := outcome
        cases hresult
        obtain ⟨hpromised, hsound, hevolves⟩ := hkeeps method result w houtcome
        exact ⟨hpromised, fun v _ => v.known_all, World.sound_all_iff.2 hsound, hevolves⟩

/-- A run that ends does so with a step from some state that it gets to. -/
theorem exists_last_of_run {status : CallStatus} (hkeeps : ∀ s, m.Visits status s → m.KeepsPromise s)
    {fuel : Nat} {c : Completion} (hs : m.Visits status s)
    (h : m.run fuel (.running s) = some c) : ∃ t, m.Visits status t ∧ m.step t = .over c := by
  induction fuel generalizing s with
  | zero => cases h
  | succ fuel ih =>
      simp only [run] at h
      cases hstep : m.step s with
      | «over» c' =>
          rw [hstep] at h
          cases fuel <;> cases h <;> exact ⟨s, hs, hstep⟩
      | running t =>
          rw [hstep] at h
          exact ih (.step hs (hkeeps s hs) hstep) h

/-- Verified code can't go wrong.  Wherever a call gets to, the analysis has a frame for the
position, all values are what the frame says, and the operand stack has room for them.  So a call
doesn't end with a type error, unless a native has come up with it. -/
theorem Assembled.call_safe (hm : m.Assembled) (hw : w.ArraysSound)
    (owner name descriptor : String) (args : List Value) :
    (∀ s, m.Visits (m.start w owner name descriptor args) s →
      ∃ frames g, s.current.method.analyze s.current.owner = .ok frames ∧
        frames.at? s.current.position = some g ∧
        List.Forall₂ (fun v t => t ≠ .top ∧ s.world.Has v t) s.current.frame.stack g.stack ∧
        s.current.frame.stackSlots ≤ s.current.method.maxStack.toNat ∧
        List.Forall₂ s.world.Has s.current.frame.locals g.locals) ∧
    ∀ fuel c e, m.call fuel w owner name descriptor args = some c →
      (∀ s, m.Visits (m.start w owner name descriptor args) s → m.KeepsPromise s) →
      c.result = .error e → e.cause.isTypeError →
      (m.start w owner name descriptor args = .over c ∧ ∃ type kind w',
          MethodType.parse descriptor = .ok type ∧
          m.nativeOutcome? w kind ⟨owner, name, type⟩ args = some (.error e.cause, w')) ∨
        ∃ s method w', m.Visits (m.start w owner name descriptor args) s ∧ m.step s = .over c ∧
          m.nativeStep? s = some (method, .error e.cause, w') := by
  have hstart (s : CallState) (hs : m.start w owner name descriptor args = .running s) :
      s.Typed fun _ => True :=
    typed_start hm.verified (World.sound_all_iff.2 hw) (fun v _ => v.known_all) hs
  refine ⟨fun s hs => ?_, fun fuel c e hcall hkeeps hc he => ?_⟩
  · obtain ⟨-, ⟨frames, g, hframes, hg, hf⟩, -⟩ := hs.typed hm.verified hstart
    have analyzed := Method.analyzed_of_analyze hframes
    have hknown := (analyzed.wellFormed _ g hg).known
    refine ⟨frames, g, hframes, hg, ?_, ?_, ?_⟩
    · refine List.forall₂_iff_get.2 ⟨hf.stack.length_eq, fun n h₁ h₂ => ?_⟩
      have hne := hknown _ (List.get_mem g.stack ⟨n, h₂⟩)
      exact ⟨hne, ((List.forall₂_iff_get.1 hf.stack).2 n h₁ h₂ hne).1⟩
    · rw [hf.stackSlots hknown]
      exact analyzed.room _ g hg
    · refine hf.locals.imp fun v t hvt => ?_
      cases t with
      | top => trivial
      | _ => exact (hvt (by simp)).1
  · simp only [call] at hcall
    cases hs : m.start w owner name descriptor args with
    | «over» c' =>
        rw [hs] at hcall
        obtain rfl : c' = c := by cases fuel <;> simpa [run] using hcall
        exact .inl ⟨rfl, typeError_of_start hs hc he⟩
    | running s =>
        rw [hs] at hcall hkeeps hstart
        obtain ⟨t, ht, hstep⟩ := exists_last_of_run hkeeps (.start s) hcall
        refine .inr ?_
        have htyped := ht.typed hm.verified hstart
        have := (typed_step hm.verified htyped fun method outcome houtcome result hresult => ?_).2
        · rw [hstep] at this
          obtain ⟨method, w', hnative⟩ := this e hc he
          exact ⟨t, method, w', ht, hstep, hnative⟩
        · obtain ⟨outcome, w'⟩ := outcome
          cases hresult
          obtain ⟨hpromised, hsound, hevolves⟩ := hkeeps t ht method result w' houtcome
          exact ⟨hpromised, fun v _ => v.known_all, World.sound_all_iff.2 hsound, hevolves⟩

/-- Takes the first element of an array. -/
def firstElement : Method where
  name := "first"
  type := ⟨[.array .int], some .int⟩
  access := .static
  maxStack := 2
  maxLocals := 1
  body := .ofList [.load .reference 0, .const (.int 0), .arrayLoad .int, .leave (some .int)]
  stackMap := []

/-- A machine with a method that takes the first element of an array. -/
def firstElementMachine : Machine :=
  ⟨.standard, [⟨"Demo", .none, [firstElement]⟩], Library.natives⟩

/-- A world with an array of one int. -/
def oneArray : World := ⟨#[.array .int #[.int 7]], #[], []⟩

theorem analyze_firstElement : firstElement.analyze "Demo" =
    .ok ([[], [.reference (.array .int)], [.int, .reference (.array .int)], [.int]].map
      fun stack => some ⟨[.reference (.array .int)], stack⟩) := by
  have hlabels : firstElement.body.labelPositions = .ok [] := rfl
  have hentry : firstElement.entryFrame "Demo" = .ok ⟨[.reference (.array .int)], []⟩ := rfl
  have hlength : ¬ firstElement.body.length = 0 := by decide
  simp only [Method.analyze, hlabels, hentry, hlength, if_false]
  rw [Progress.run_of_follow rfl rfl, Progress.run_of_follow rfl rfl, Progress.run_of_follow rfl rfl,
    Progress.run_of_follow rfl rfl, Progress.run]
  rfl

/-- The array is what the analysis takes the method's parameter for. -/
theorem call_safe_firstElement :
    ∃ frames g, firstElement.analyze "Demo" = .ok frames ∧ frames.at? 0 = some g ∧
      List.Forall₂ (fun v t => t ≠ .top ∧ oneArray.Has v t) [] g.stack ∧
      0 ≤ firstElement.maxStack.toNat ∧ List.Forall₂ oneArray.Has [.object 0] g.locals := by
  have hverified : firstElement.verifyForLoading "Demo" = .ok () := by
    simp only [Method.verifyForLoading, Method.verify, analyze_firstElement]
    rfl
  have hchecked : CompiledUnit.verifyForLoading ⟨"Demo", .none, [firstElement]⟩ = .ok () := by
    refine Except.forM_eq_ok.2 fun m hm => ?_
    obtain rfl : m = firstElement := by simpa using hm
    simp only [hverified]
  have hload : (Machine.new .standard).load ⟨"Demo", .none, [firstElement]⟩ =
      .ok firstElementMachine := by
    simp only [load, hchecked]
    rfl
  have hm : firstElementMachine.Assembled := .load (.new .standard) hload
  have hw : oneArray.ArraysSound := by
    intro a element values ho v hv
    cases a with
    | zero =>
        cases ho
        obtain rfl : v = .int 7 := by simpa using hv
        rfl
    | succ a => simp [oneArray, World.object?] at ho
  have hstart : firstElementMachine.start oneArray "Demo" "first" "([I)I" [.object 0] =
      .running ⟨oneArray, 0, ⟨"Demo", firstElement, 0, ⟨[.object 0], []⟩⟩, []⟩ := by
    have hparse : MethodType.parse "([I)I" = .ok ⟨[.array .int], some .int⟩ := by
      simp [MethodType.parse, MethodType.parseParams, MethodType.parseReturns, ValueType.parseFront]
      rfl
    simp only [start, hparse]
    rfl
  refine (hm.call_safe hw "Demo" "first" "([I)I" [.object 0]).1
    ⟨oneArray, 0, ⟨"Demo", firstElement, 0, ⟨[.object 0], []⟩⟩, []⟩ ?_
  rw [hstart]
  exact .start _

end Machine

end Resumable
