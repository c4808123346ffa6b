import Resumable.Machine.Run
import Resumable.Proofs.Conformance

/-!
# Execution of analyzed instructions

An instruction that has a rule either fails for a reason that code can bring about, or goes on in a
way that the analysis has foreseen: from a frame that conforms to the frame before the instruction
to one that conforms to the frame after it.
-/

namespace Resumable

/-- True for the errors with which the machine refuses to execute an instruction because of the
kinds of its operands, because of a label or a local, or altogether. -/
def MachineError.isTypeError : MachineError → Bool
  | .misuse _ | .unsupportedInstruction _ => true
  | _ => false

namespace Value

variable {known : Nat → Prop} {v : Value}

theorem eq_int_of_kind (h : v.kind = .int) : ∃ n, v = int n := by
  cases v <;> first | exact ⟨_, rfl⟩ | cases h

theorem known_of_kind {kind : NumericKind} (h : v.kind = kind.toValueKind) : v.Known known := by
  cases v with
  | object address => cases kind <;> cases h
  | _ => trivial

theorem isNull_or_object_of_kind (h : v.kind = .reference) : v = null ∨ ∃ a, v = object a := by
  cases v with
  | null => exact .inl rfl
  | object a => exact .inr ⟨a, rfl⟩
  | _ => cases h

/-- Negating a number gives a number of its kind. -/
theorem negate_of_kind {kind : NumericKind} (h : v.kind = kind.toValueKind) :
    ∃ u, v.negate = .ok u ∧ u.kind = kind.toValueKind := by
  cases v with
  | null | object => cases kind <;> cases h
  | _ => exact ⟨_, rfl, h⟩

theorem kind_ofInt (n : Int) (target : NumericKind) : (ofInt n target).kind = target.toValueKind := by
  cases target <;> rfl

theorem kind_ofWord (f : BinaryFormat) (word : Nat) (target : NumericKind) :
    (ofWord f word target).kind = target.toValueKind := by
  cases target <;> rfl

/-- Every number converts to every kind. -/
theorem convert_of_kind {source : NumericKind} (h : v.kind = source.toValueKind)
    (target : NumericKind) : ∃ u, v.convert target = .ok u ∧ u.kind = target.toValueKind := by
  cases v with
  | null | object => cases source <;> cases h
  | int n | long n => exact ⟨_, rfl, kind_ofInt ..⟩
  | float word | double word => exact ⟨_, rfl, kind_ofWord ..⟩

/-- Numbers of one kind compare. -/
theorem compare?_of_kind {kind : NumericKind} {u : Value} (hu : u.kind = kind.toValueKind)
    (hv : v.kind = kind.toValueKind) : ∃ ordering, u.compare? v = .ok ordering := by
  cases kind <;> cases u <;> cases hu <;> cases v <;> cases hv <;> exact ⟨_, rfl⟩

theorem kind_ofOrdering (nanIsGreater : Bool) (ordering : Option Ordering) :
    (ofOrdering nanIsGreater ordering).kind = .int := by
  cases ordering with
  | none => rfl
  | some o => cases o <;> rfl

theorem known_zero (kind : ValueKind) : (zero kind).Known known := by
  cases kind <;> trivial

end Value

/-- What a new array is filled with is an instance of its elements' type. -/
theorem World.isInstance_zero (w : World) (type : ValueType) :
    w.isInstance (.zero type.kind) type := by
  refine World.has_ofType.1 ?_
  cases type <;> simp [Value.zero, ValueType.kind, World.Has, FrameValue.ofType,
    FrameValue.kind?, Value.kind, World.isInstance, ValueType.isReference]

/-- A new array keeps the world sound. -/
theorem World.Sound.newArray {known : Nat → Prop} {w : World} (hw : w.Sound known)
    (element : ValueType) (length : Nat) : (w.newArray element length).2.Sound known := by
  have hzero : ∀ v ∈ Array.replicate length (Value.zero element.kind), v = .zero element.kind :=
    fun v hv => (Array.mem_replicate.1 hv).2
  refine hw.allocate (fun e vs hvs v hv => ?_) fun v hv => ?_
  · cases hvs
    rw [hzero v (Array.mem_toList_iff.1 hv)]
    exact w.isInstance_zero element
  · rw [hzero v (Array.mem_toList_iff.1 hv)]
    exact Value.known_zero _

namespace BinaryOp

theorem onInts_cases (op : BinaryOp) (a b : Int32) :
    (∃ n, op.onInts a b = .ok n) ∨ op.onInts a b = .error .divisionByZero := by
  cases op <;> simp only [onInts] <;> first | exact .inl ⟨_, rfl⟩ | skip
  all_goals split
  all_goals first | exact .inr rfl | exact .inl ⟨_, rfl⟩

theorem onLongs_cases (op : BinaryOp) (a b : Int64) :
    (∃ n, op.onLongs a b = .ok n) ∨ op.onLongs a b = .error .divisionByZero := by
  cases op <;> simp only [onLongs] <;> first | exact .inl ⟨_, rfl⟩ | skip
  all_goals split
  all_goals first | exact .inr rfl | exact .inl ⟨_, rfl⟩

/-- An operation on numbers of its kind gives one of its kind, or divides by zero. -/
theorem perform_cases {op : BinaryOp} {kind : NumericKind} {left right : Value}
    (hop : ¬ (op.isIntegralOnly ∧ (kind = .float ∨ kind = .double)))
    (hl : left.kind = kind.toValueKind)
    (hr : right.kind = if op.isShift then .int else kind.toValueKind) :
    (∃ v, op.perform kind left right = .ok v ∧ v.kind = kind.toValueKind) ∨
      op.perform kind left right = .error .divisionByZero := by
  cases kind with
  | int =>
      obtain ⟨a, rfl⟩ := Value.eq_int_of_kind hl
      obtain ⟨b, rfl⟩ := Value.eq_int_of_kind (v := right) (by simpa [NumericKind.toValueKind] using hr)
      rcases op.onInts_cases a b with ⟨n, h⟩ | h
      · exact .inl ⟨.int n, by simp [perform, h], rfl⟩
      · exact .inr (by simp [perform, h])
  | long =>
      cases left <;> cases hl
      rename_i a
      by_cases hs : op.isShift
      · obtain ⟨b, rfl⟩ := Value.eq_int_of_kind (v := right) (by simpa [hs] using hr)
        rcases op.onLongs_cases a b.toInt64 with ⟨n, h⟩ | h
        · exact .inl ⟨.long n, by simp [perform, hs, h], rfl⟩
        · exact .inr (by simp [perform, hs, h])
      · simp only [hs] at hr
        cases right <;> cases hr
        rename_i b
        rcases op.onLongs_cases a b with ⟨n, h⟩ | h
        · exact .inl ⟨.long n, by simp [perform, hs, h], rfl⟩
        · exact .inr (by simp [perform, hs, h])
  | float =>
      have hi : op.isIntegralOnly = false := by simpa using hop
      have hs : op.isShift = false := by cases op <;> simp_all [isIntegralOnly, isShift]
      simp only [hs] at hr
      cases left <;> cases hl
      cases right <;> cases hr
      rename_i a b
      have : ∃ word, op.onWords? .single a.toNat b.toNat = some word := by
        cases op <;> simp_all [isIntegralOnly, isShift, onWords?]
      obtain ⟨word, h⟩ := this
      exact .inl ⟨_, by simp only [perform, h]; rfl, rfl⟩
  | double =>
      have hi : op.isIntegralOnly = false := by simpa using hop
      have hs : op.isShift = false := by cases op <;> simp_all [isIntegralOnly, isShift]
      simp only [hs] at hr
      cases left <;> cases hl
      cases right <;> cases hr
      rename_i a b
      have : ∃ word, op.onWords? .double a.toNat b.toNat = some word := by
        cases op <;> simp_all [isIntegralOnly, isShift, onWords?]
      obtain ⟨word, h⟩ := this
      exact .inl ⟨_, by simp only [perform, h]; rfl, rfl⟩

end BinaryOp

/-- True if a result is an instance of the type that's promised, and there's none if none is. -/
def World.Promised (w : World) : (result : Option Value) → (returns : Option ValueType) → Prop
  | none, none => True
  | some v, some type => w.isInstance v type
  | _, _ => False

/-- True if the result, if there's one, is known. -/
def Value.KnownResult (known : Nat → Prop) (result : Option Value) : Prop :=
  ∀ v, result = some v → v.Known known

/-- How execution goes on after an instruction of a method, given the analyzed frame after it. -/
inductive Flow.Foreseen (m : Method) (known : Nat → Prop) (w : World) (f : ValueFrame)
    (i : Instruction) (g : Frame) : Flow → Prop
  | proceed (falls : i.fallsThrough) (conforms : f.Conforms known w g) :
      Foreseen m known w f i g .proceed
  | jump {target : Label} (listed : target ∈ i.targets) (conforms : f.Conforms known w g) :
      Foreseen m known w f i g (.jump target)
  | call {kind : InvokeKind} {method : MethodRef} {args : List Value} {rest : List FrameValue}
      (here : i = .invoke kind method)
      (fit : List.Forall₂ (fun v t => w.isInstance v t ∧ v.Known known) args
        (Machine.argumentTypes method kind))
      (stack : g.stack = (method.type.returns.map FrameValue.ofType).toList ++ rest)
      (conforms : f.Conforms known w ⟨g.locals, rest⟩) :
      Foreseen m known w f i g (.call kind method args)
  | leave {result : Option Value} (promised : w.Promised result m.type.returns)
      (isKnown : Value.KnownResult known result) : Foreseen m known w f i g (.leave result)

/-- What comes of executing an instruction: an error that isn't a type error, or execution goes on
as foreseen. -/
def ValueFrame.Executes (m : Method) (known : Nat → Prop) (w : World) (f : ValueFrame)
    (i : Instruction) (g : Frame) : Prop :=
  match f.execute w i with
  | .error e => e.isTypeError = false
  | .ok (flow, f', w') =>
    w'.Sound known ∧ w.Evolves w' ∧ flow.Foreseen m known w' f' i g

theorem tableTarget_mem_targets (low n : Int32) (otherwise : Label) (targets : List Label) :
    tableTarget low n otherwise targets ∈ (Instruction.tableSwitch low otherwise targets).targets := by
  simp only [tableTarget, Instruction.targets]
  split
  · simp
  · rw [List.getD_eq_getElem?_getD]
    cases ht : targets[(n.toInt - low.toInt).toNat]? with
    | none => simp
    | some l => simpa using .inr (List.mem_of_getElem? ht)

theorem lookupTarget_mem_targets (n : Int32) (otherwise : Label) (entries : List (Int32 × Label)) :
    lookupTarget n otherwise entries ∈ (Instruction.lookupSwitch otherwise entries).targets := by
  simp only [lookupTarget, Instruction.targets]
  cases ht : entries.lookup n with
  | none => simp
  | some l =>
      obtain ⟨a, b, hab, -⟩ := List.lookup_eq_some_iff.1 ht
      simp [hab]

namespace ValueFrame

variable {m : Method} {known : Nat → Prop} {w : World} {locals values stack : List Value}
  {gLocals gStack : List FrameValue} {i : Instruction}

theorem popInt_cons (locals stack : List Value) (n : Int32) :
    popInt ⟨locals, .int n :: stack⟩ = .ok (n, ⟨locals, stack⟩) := rfl

/-- An instruction that neither jumps nor touches the world. -/
theorem executes_proceed {f : ValueFrame} {g : Frame} (f' : ValueFrame) (hw : w.Sound known)
    (h : f.execute w i = .ok (.proceed, f', w)) (hfalls : i.fallsThrough)
    (hf : f'.Conforms known w g) : Executes m known w f i g := by
  simp only [Executes, h]
  exact ⟨hw, .refl w, .proceed hfalls hf⟩

/-- An instruction that fails for a reason that code can bring about. -/
theorem executes_error {f : ValueFrame} {g : Frame} {e : MachineError}
    (h : f.execute w i = .error e) (he : e.isTypeError = false) : Executes m known w f i g := by
  simpa only [Executes, h] using he

/-- A jump to one of the instruction's targets. -/
theorem executes_jump {f : ValueFrame} {g : Frame} (f' : ValueFrame) {target : Label}
    (hw : w.Sound known) (h : f.execute w i = .ok (.jump target, f', w))
    (hlisted : target ∈ i.targets) (hf : f'.Conforms known w g) : Executes m known w f i g := by
  simp only [Executes, h]
  exact ⟨hw, .refl w, .jump hlisted hf⟩

/-- A jump that depends on a test. -/
theorem executes_branch {f : ValueFrame} {g : Frame} (f' : ValueFrame) {test : Prop}
    [Decidable test] {target : Label} (hw : w.Sound known)
    (h : f.execute w i = .ok (if test then .jump target else .proceed, f', w))
    (hlisted : target ∈ i.targets) (hfalls : i.fallsThrough) (hf : f'.Conforms known w g) :
    Executes m known w f i g := by
  by_cases ht : test
  · exact executes_jump f' hw (by rw [h, if_pos ht]) hlisted hf
  · exact executes_proceed f' hw (by rw [h, if_neg ht]) hfalls hf

/-- An instruction that puts a new object on top of the operand stack. -/
theorem executes_allocate {f : ValueFrame} {o : Object} {type : ValueType}
    (hw : (w.allocate o).2.Sound known) (hfresh : known w.objects.size)
    (h : f.execute w i =
      .ok (.proceed, ⟨locals, (w.allocate o).1 :: stack⟩, (w.allocate o).2))
    (hfalls : i.fallsThrough) (hr : type.isReference) (htype : type.isAssignableFrom o.type)
    (hf : Conforms known w ⟨locals, stack⟩ ⟨gLocals, gStack⟩) :
    Executes m known w f i ⟨gLocals, .reference type :: gStack⟩ := by
  have hevolves := w.evolves_allocate o
  have hconforms := hf.evolves hevolves
  simp only [Executes, h]
  refine ⟨hw, hevolves, .proceed hfalls ⟨hconforms.locals, .cons (fun _ => ?_) hconforms.stack⟩⟩
  exact ⟨⟨rfl, w.isInstance_allocate hr htype⟩, hfresh⟩

theorem fits_of_kind (kind : NumericKind) {v : Value} (h : v.kind = kind.toValueKind) :
    w.Fits known v (.ofKind kind.toValueKind) :=
  fun _ => ⟨World.has_ofKind.2 h, Value.known_of_kind h⟩

theorem fits_int {v : Value} (h : v.kind = .int) : w.Fits known v .int :=
  fits_of_kind .int h

/-- A frame with another operand on top. -/
theorem conforms_cons {v : Value} {t : FrameValue} (hl : List.Forall₂ (w.Fits known) locals gLocals)
    (hs : List.Forall₂ (w.Fits known) stack gStack) (hv : w.Fits known v t) :
    Conforms known w ⟨locals, v :: stack⟩ ⟨gLocals, t :: gStack⟩ := ⟨hl, .cons hv hs⟩

theorem executes_binary {op : BinaryOp} {kind : NumericKind} {left right : Value}
    (hop : ¬ (op.isIntegralOnly ∧ (kind = .float ∨ kind = .double)))
    (hleft : left.kind = kind.toValueKind)
    (hright : right.kind = if op.isShift then .int else kind.toValueKind) (hw : w.Sound known)
    (hl : List.Forall₂ (w.Fits known) locals gLocals)
    (hs : List.Forall₂ (w.Fits known) stack gStack) :
    Executes m known w ⟨locals, right :: left :: stack⟩ (.binary op kind)
      ⟨gLocals, .ofKind kind.toValueKind :: gStack⟩ := by
  rcases BinaryOp.perform_cases hop hleft hright with ⟨v, hv, hk⟩ | h
  · refine executes_proceed ⟨locals, v :: stack⟩ hw ?_ rfl
      (conforms_cons hl hs (fits_of_kind _ hk))
    simp only [execute, compute, pop, push, Except.ok_bind, hv]
    rfl
  · refine executes_error (e := .divisionByZero) ?_ rfl
    simp only [execute, compute, pop, Except.ok_bind, h]
    rfl

/-- A cast to a type that the value is an instance of. -/
theorem execute_checkCast {v : Value} {type : ValueType} (h : w.isInstance v type) :
    execute w ⟨locals, v :: stack⟩ (.checkCast type) = .ok (.proceed, ⟨locals, v :: stack⟩, w) := by
  simp only [execute, access, pop, push, World.checkInstance, Except.ok_bind, h]
  rfl

/-- An element of an array is loaded from its place. -/
theorem execute_arrayLoad {v : Value} {a place : Nat} {element : ValueType} {kind : ValueKind}
    {elements : Array Value} {index : Int32} (h : w.array v = .ok (a, element, elements))
    (hplace : checkIndex index elements.size = .ok place) :
    execute w ⟨locals, .int index :: v :: stack⟩ (.arrayLoad kind) =
      .ok (.proceed, ⟨locals, elements.getD place .null :: stack⟩, w) := by
  simp only [execute, access, popInt_cons, pop, Except.ok_bind, h, hplace]
  rfl

/-- An instance of the element type is stored in its place. -/
theorem execute_arrayStore {u v : Value} {a place : Nat} {element : ValueType} {kind : ValueKind}
    {elements : Array Value} {index : Int32} (h : w.array v = .ok (a, element, elements))
    (hu : w.isInstance u element) (hplace : checkIndex index elements.size = .ok place) :
    execute w ⟨locals, u :: .int index :: v :: stack⟩ (.arrayStore kind) =
      .ok (.proceed, ⟨locals, stack⟩, w.setElement a place u) := by
  simp only [execute, access, popInt_cons, pop, Except.ok_bind, h, World.checkInstance, hu, if_true,
    hplace]
  rfl

/-- An instruction whose operands have the kinds that it takes. -/
theorem executes_fixed {kinds : List ValueKind} {given : List FrameValue}
    (effect : i.fixedEffect? = some (kinds, given))
    (operands : List.Forall₂ (fun k v => v.kind = k ∧ v.Known known) kinds values)
    (hw : w.Sound known) (hl : List.Forall₂ (w.Fits known) locals gLocals)
    (hs : List.Forall₂ (w.Fits known) stack gStack) :
    Executes m known w ⟨locals, values ++ stack⟩ i ⟨gLocals, given ++ gStack⟩ := by
  cases i <;> simp only [Instruction.fixedEffect?] at effect
  case binary op kind =>
    split at effect
    · cases effect
    · rename_i hop
      cases effect
      obtain _ | ⟨⟨hu, -⟩, _ | ⟨⟨hv, -⟩, _ | _⟩⟩ := operands
      exact executes_binary hop hv hu hw hl hs
  case label | nop =>
    cases effect
    cases operands
    exact executes_proceed _ hw rfl rfl ⟨hl, hs⟩
  case const c =>
    cases effect
    cases operands
    cases c with
    | string s =>
        exact executes_allocate (hw.allocate (by simp) (by simp [Object.parts]))
          (hw.fresh _ (Nat.le_refl _)) rfl rfl rfl rfl ⟨hl, hs⟩
    | _ => exact executes_proceed _ hw rfl rfl (conforms_cons hl hs fun _ => ⟨rfl, trivial⟩)
  case negate kind =>
    cases effect
    obtain _ | ⟨⟨hv, -⟩, _ | _⟩ := operands
    rename_i v
    obtain ⟨u, hu, hk⟩ := Value.negate_of_kind hv
    refine executes_proceed ⟨locals, u :: stack⟩ hw ?_ rfl
      (conforms_cons hl hs (fits_of_kind _ hk))
    simp only [execute, compute, pop, push, List.cons_append, List.nil_append, Except.ok_bind, hu]
    rfl
  case convert source target =>
    cases effect
    obtain _ | ⟨⟨hv, -⟩, _ | _⟩ := operands
    obtain ⟨u, hu, hk⟩ := Value.convert_of_kind hv target
    refine executes_proceed ⟨locals, u :: stack⟩ hw ?_ rfl
      (conforms_cons hl hs (fits_of_kind _ hk))
    simp only [execute, compute, pop, push, List.cons_append, List.nil_append, Except.ok_bind, hu]
    rfl
  case compare kind nanIsGreater =>
    cases effect
    obtain _ | ⟨⟨hu, -⟩, _ | ⟨⟨hv, -⟩, _ | _⟩⟩ := operands
    obtain ⟨ordering, ho⟩ := Value.compare?_of_kind hv hu
    refine executes_proceed ⟨locals, .ofOrdering nanIsGreater ordering :: stack⟩ hw ?_ rfl
      (conforms_cons hl hs (fits_int (Value.kind_ofOrdering ..)))
    simp only [execute, compute, pop, push, List.cons_append, List.nil_append, Except.ok_bind, ho]
    rfl
  case goto target =>
    cases effect
    cases operands
    exact executes_jump ⟨locals, stack⟩ hw rfl List.mem_cons_self ⟨hl, hs⟩
  case ifZero condition target =>
    cases effect
    obtain _ | ⟨⟨hv, -⟩, _ | _⟩ := operands
    obtain ⟨n, rfl⟩ := Value.eq_int_of_kind hv
    exact executes_branch ⟨locals, stack⟩ hw rfl List.mem_cons_self rfl ⟨hl, hs⟩
  case ifCompare condition target =>
    cases effect
    obtain _ | ⟨⟨hu, -⟩, _ | ⟨⟨hv, -⟩, _ | _⟩⟩ := operands
    obtain ⟨a, rfl⟩ := Value.eq_int_of_kind hu
    obtain ⟨b, rfl⟩ := Value.eq_int_of_kind hv
    exact executes_branch ⟨locals, stack⟩ hw rfl List.mem_cons_self rfl ⟨hl, hs⟩
  case ifSame same target =>
    cases effect
    obtain _ | ⟨-, _ | ⟨-, _ | _⟩⟩ := operands
    exact executes_branch ⟨locals, stack⟩ hw rfl List.mem_cons_self rfl ⟨hl, hs⟩
  case ifNull null target =>
    cases effect
    obtain _ | ⟨-, _ | _⟩ := operands
    exact executes_branch ⟨locals, stack⟩ hw rfl List.mem_cons_self rfl ⟨hl, hs⟩
  case tableSwitch low otherwise targets =>
    cases effect
    obtain _ | ⟨⟨hv, -⟩, _ | _⟩ := operands
    obtain ⟨n, rfl⟩ := Value.eq_int_of_kind hv
    exact executes_jump ⟨locals, stack⟩ hw rfl (tableTarget_mem_targets low n otherwise targets)
      ⟨hl, hs⟩
  case lookupSwitch otherwise cases' =>
    cases effect
    obtain _ | ⟨⟨hv, -⟩, _ | _⟩ := operands
    obtain ⟨n, rfl⟩ := Value.eq_int_of_kind hv
    exact executes_jump ⟨locals, stack⟩ hw rfl (lookupTarget_mem_targets n otherwise cases')
      ⟨hl, hs⟩
  case throw =>
    cases effect
    obtain _ | ⟨-, _ | _⟩ := operands
    rename_i v
    refine executes_error (e := if v.isNull then .nullReference else .thrown v) rfl ?_
    cases v.isNull <;> rfl
  case monitorEnter | monitorExit =>
    cases effect
    obtain _ | ⟨-, _ | _⟩ := operands
    rename_i v
    cases hn : v.isNull
    · refine executes_proceed ⟨locals, stack⟩ hw ?_ rfl ⟨hl, hs⟩
      simp only [execute, pop, List.cons_append, List.nil_append, Except.ok_bind, hn]
      rfl
    · refine executes_error (e := .nullReference) ?_ rfl
      simp only [execute, pop, List.cons_append, List.nil_append, Except.ok_bind, hn]
      rfl
  case newArray element =>
    cases effect
    obtain _ | ⟨⟨hv, -⟩, _ | _⟩ := operands
    obtain ⟨n, rfl⟩ := Value.eq_int_of_kind hv
    by_cases hn : n < 0
    · refine executes_error (e := .negativeArraySize n) ?_ rfl
      simp only [execute, access, popInt_cons, List.cons_append, List.nil_append, Except.ok_bind,
        hn, if_true]
      rfl
    · refine executes_allocate (hw.newArray element n.toInt.toNat) (hw.fresh _ (Nat.le_refl _)) ?_
        rfl rfl (ValueType.isAssignableFrom_refl _ rfl) ⟨hl, hs⟩
      simp only [execute, access, popInt_cons, List.cons_append, List.nil_append, Except.ok_bind,
        hn, if_false]
      rfl
  case checkCast type =>
    split at effect
    · cases effect
      obtain _ | ⟨⟨hv, hk⟩, _ | _⟩ := operands
      rename_i v
      cases hi : w.isInstance v type
      · refine executes_error (e := .classCast type (w.typeOf v)) ?_ rfl
        simp only [execute, access, pop, World.checkInstance, List.cons_append, List.nil_append,
          Except.ok_bind, hi]
        rfl
      · exact executes_proceed ⟨locals, v :: stack⟩ hw (execute_checkCast hi) rfl
          (conforms_cons hl hs fun _ => ⟨⟨hv, hi⟩, hk⟩)
    · cases effect
  case instanceOf type =>
    split at effect
    · cases effect
      obtain _ | ⟨-, _ | _⟩ := operands
      exact executes_proceed _ hw rfl rfl (conforms_cons hl hs (fits_int rfl))
    · cases effect
  all_goals cases effect

/-- Values that are moved on the operand stack are moved as their frame values are. -/
theorem execute_shuffle {taken given : List Value} (h : Shuffle Value.isWide i taken given) :
    execute w ⟨locals, taken ++ stack⟩ i = .ok (.proceed, ⟨locals, given ++ stack⟩, w) := by
  cases h <;>
    simp_all [execute, shuffle, pop, pushAll, push, Except.ok_bind, pure, Except.pure]

/-- An instruction that moves values. -/
theorem executes_shuffle {taken given : List FrameValue}
    (moves : Shuffle FrameValue.isWide i taken given) (ht : ∀ v ∈ taken, v ≠ .top)
    (hv : List.Forall₂ (w.Fits known) values taken) (hw : w.Sound known)
    (hl : List.Forall₂ (w.Fits known) locals gLocals)
    (hs : List.Forall₂ (w.Fits known) stack gStack) :
    Executes m known w ⟨locals, values ++ stack⟩ i ⟨gLocals, given ++ gStack⟩ := by
  have hR : List.Forall₂ (fun (t : FrameValue) (v : Value) => w.Fits known v t ∧ t ≠ .top)
      taken values := by
    refine List.forall₂_iff_get.2 ⟨hv.length_eq.symm, fun n h₁ h₂ => ⟨?_, ?_⟩⟩
    · exact (List.forall₂_iff_get.1 hv).2 n h₂ h₁
    · exact ht _ (List.get_mem _ _)
  have hwide (t : FrameValue) (v : Value) (htv : w.Fits known v t ∧ t ≠ .top) :
      t.isWide = v.isWide := ((htv.1 htv.2).1.isWide htv.2).symm
  obtain ⟨given', moves', hg⟩ := moves.map hwide hR
  have hfalls : i.fallsThrough := by cases moves <;> rfl
  refine executes_proceed _ hw (execute_shuffle moves') hfalls ⟨hl, forall₂_append ?_ hs⟩
  exact hg.flip.imp fun _ _ h => h.1

theorem executes_load {kind : ValueKind} {index : UInt16} {t : FrameValue}
    (found : gLocals[index.toNat]? = some t) (hw : w.Sound known)
    (hl : List.Forall₂ (w.Fits known) locals gLocals)
    (hs : List.Forall₂ (w.Fits known) stack gStack) :
    Executes m known w ⟨locals, stack⟩ (.load kind index) ⟨gLocals, t :: gStack⟩ := by
  obtain ⟨v, hv, hvt⟩ := getElem?_of_forall₂ hl found
  refine executes_proceed ⟨locals, v :: stack⟩ hw ?_ rfl (conforms_cons hl hs hvt)
  simp only [execute, load, hv, Except.ok_bind]
  rfl

theorem store_of_lt {index : Nat} {v : Value} (h : index < locals.length) :
    store ⟨locals, stack⟩ index v = .ok ⟨locals.set index v, stack⟩ := by
  simp [store, h]

/-- Storing a value leaves the locals fitting those that the analysis knows of. -/
theorem fits_storeLocals {index : Nat} {v : Value} {t : FrameValue}
    (hl : List.Forall₂ (w.Fits known) locals gLocals) (hv : w.Fits known v t) :
    List.Forall₂ (w.Fits known) (locals.set index v) (Frame.storeLocals gLocals index t) := by
  refine List.forall₂_iff_get.2 ⟨?_, fun n h₁ h₂ => ?_⟩
  · rw [Frame.length_storeLocals, List.length_set, hl.length_eq]
  · have hn : n < gLocals.length := by simpa [Frame.length_storeLocals] using h₂
    have hfits := (List.forall₂_iff_get.1 hl).2 n (hl.length_eq ▸ hn) hn
    have hstore := Frame.getElem?_storeLocals gLocals index n t
    rw [List.getElem?_eq_getElem h₂, if_pos hn] at hstore
    simp only [List.get_eq_getElem, List.getElem_set] at hfits ⊢
    split at hstore
    · rename_i hindex
      rw [if_pos hindex.symm, Option.some.inj hstore]
      exact hv
    · rename_i hindex
      rw [if_neg (Ne.symm hindex)]
      split at hstore
      · rw [Option.some.inj hstore]
        exact fun h => absurd rfl h
      · split at hstore
        · rw [Option.some.inj hstore]
          exact fun h => absurd rfl h
        · rw [List.getElem?_eq_getElem hn] at hstore
          rw [Option.some.inj hstore]
          exact hfits

theorem executes_store {kind : ValueKind} {index : UInt16} {v : Value} {t : FrameValue}
    (hindex : index.toNat < locals.length) (hv : w.Fits known v t) (hw : w.Sound known)
    (hl : List.Forall₂ (w.Fits known) locals gLocals)
    (hs : List.Forall₂ (w.Fits known) stack gStack) :
    Executes m known w ⟨locals, v :: stack⟩ (.store kind index)
      ⟨Frame.storeLocals gLocals index.toNat t, gStack⟩ := by
  refine executes_proceed ⟨locals.set index.toNat v, stack⟩ hw ?_ rfl
    ⟨fits_storeLocals hl hv, hs⟩
  simp only [execute, pop, Except.ok_bind, store_of_lt hindex]
  rfl

theorem executes_increment {index : UInt16} {delta : Int16}
    (found : gLocals[index.toNat]? = some .int) (hw : w.Sound known)
    (hl : List.Forall₂ (w.Fits known) locals gLocals)
    (hs : List.Forall₂ (w.Fits known) stack gStack) :
    Executes m known w ⟨locals, stack⟩ (.increment index delta) ⟨gLocals, gStack⟩ := by
  obtain ⟨v, hv, hvt⟩ := getElem?_of_forall₂ hl found
  obtain ⟨n, rfl⟩ := Value.eq_int_of_kind ((hvt (by simp)).1.kind rfl)
  have hset : gLocals.set index.toNat .int = gLocals :=
    List.ext_getElem? fun i => by grind
  refine executes_proceed ⟨locals.set index.toNat (.int (n + delta.toInt32)), stack⟩ hw ?_
    rfl ⟨?_, hs⟩
  · simp only [execute, load, hv, Except.ok_bind, store_of_lt (List.getElem?_eq_some_iff.1 hv).1]
    rfl
  · exact hset ▸ forall₂_set hl index.toNat (fits_int rfl)

theorem operandTypes_eq (method : MethodRef) (kind : InvokeKind) :
    method.operandTypes kind = (Machine.argumentTypes method kind).reverse := by
  cases kind <;> simp [MethodRef.operandTypes, Machine.argumentTypes]

/-- An invocation takes as many operands as it has arguments. -/
theorem execute_invoke {kind : InvokeKind} {method : MethodRef}
    (h : values.length = (Machine.argumentTypes method kind).length) :
    execute w ⟨locals, values ++ stack⟩ (.invoke kind method) =
      .ok (.call kind method values.reverse, ⟨locals, stack⟩, w) := by
  have hpop : popMany ⟨locals, values ++ stack⟩ values.length =
      .ok (values.reverse, ⟨locals, stack⟩) := by simp [popMany]
  cases kind with
  | static =>
      have hn : method.type.params.length + 0 = values.length := h.symm
      simp only [execute, hn, hpop, Except.ok_bind]
      rfl
  | virtual =>
      have hn : method.type.params.length + 1 = values.length := h.symm
      simp only [execute, hn, hpop, Except.ok_bind]
      rfl

/-- An invocation leaves the world to the method that it gets to. -/
theorem world_of_invoke {kind : InvokeKind} {method : MethodRef} {flow : Flow} {f f' : ValueFrame}
    {w' : World} (h : f.execute w (.invoke kind method) = .ok (flow, f', w')) : w' = w := by
  simp only [execute] at h
  obtain ⟨⟨args, f''⟩, -, h⟩ := Except.bind_eq_ok.1 h
  cases h
  rfl

theorem executes_invoke {kind : InvokeKind} {method : MethodRef} {taken : List FrameValue}
    (operands : List.Forall₂ (fun t v => (FrameValue.ofType t).isAssignableFrom v)
      (method.operandTypes kind) taken) (hv : List.Forall₂ (w.Fits known) values taken)
    (hw : w.Sound known) (hl : List.Forall₂ (w.Fits known) locals gLocals)
    (hs : List.Forall₂ (w.Fits known) stack gStack) :
    Executes m known w ⟨locals, values ++ stack⟩ (.invoke kind method)
      ⟨gLocals, (method.type.returns.map FrameValue.ofType).toList ++ gStack⟩ := by
  have hlength : values.length = (Machine.argumentTypes method kind).length := by
    rw [hv.length_eq, ← operands.length_eq, operandTypes_eq, List.length_reverse]
  have hargs : List.Forall₂ (fun v t => w.isInstance v t ∧ v.Known known) values
      (method.operandTypes kind) := by
    refine List.forall₂_iff_get.2 ⟨hv.length_eq.trans operands.length_eq.symm, fun n h₁ h₂ => ?_⟩
    have hfits := (List.forall₂_iff_get.1 hv).2 n h₁ (hv.length_eq ▸ h₁)
    have hassign := (List.forall₂_iff_get.1 operands).2 n h₂ (hv.length_eq ▸ h₁)
    have hmono := hfits.mono hassign (FrameValue.isProper_ofType _)
    exact (hmono (FrameValue.ofType_ne_top _)).imp_left World.has_ofType.1
  simp only [Executes, execute_invoke hlength]
  refine ⟨hw, .refl w, .call rfl ?_ rfl ⟨hl, hs⟩⟩
  rw [operandTypes_eq] at hargs
  simpa using List.forall₂_reverse_iff.2 hargs

/-- What can be used as an array is null or refers to one. -/
theorem array_cases {kind : ValueKind} {v : Value} {t element : FrameValue}
    (harray : t.ArrayOf kind element) (hv : w.Has v t) :
    v = .null ∨ ∃ a type, t = .reference (.array type) ∧ element = .ofType type ∧
      v = .object a ∧ w.isInstance v (.array type) := by
  cases harray with
  | null => exact .inl hv
  | array type =>
      rcases Value.isNull_or_object_of_kind hv.1 with rfl | ⟨a, rfl⟩
      · exact .inl rfl
      · exact .inr ⟨a, type, rfl, rfl, rfl, hv.2⟩

theorem object?_of_isInstance_array {a : Nat} {type : ValueType}
    (h : w.isInstance (.object a) (.array type)) :
    ∃ element values, w.object? a = some (.array element values) ∧
      w.array (.object a) = .ok (a, element, values) := by
  have htype := (World.isInstance_object.1 h).2
  simp only [World.typeOf] at htype
  cases ho : w.object? a with
  | none => simp [ho, ValueType.isAssignableFrom, ValueType.root] at htype
  | some o =>
      cases o with
      | array element values => exact ⟨element, values, rfl, by simp [World.array, ho]⟩
      | box content =>
          simp only [ho, Option.map_some, Object.type, Option.getD_some] at htype
          split at htype <;> simp [ValueType.isAssignableFrom, ValueType.root] at htype
      | _ =>
          simp [ho, Object.type, ValueType.isAssignableFrom, Capability.type,
            Capability.stateType] at htype

theorem executes_arrayLength {kind : ValueKind} {v : Value} {t element : FrameValue}
    (harray : t.ArrayOf kind element) (hv : w.Has v t) (hw : w.Sound known)
    (hl : List.Forall₂ (w.Fits known) locals gLocals)
    (hs : List.Forall₂ (w.Fits known) stack gStack) :
    Executes m known w ⟨locals, v :: stack⟩ .arrayLength ⟨gLocals, .int :: gStack⟩ := by
  rcases array_cases harray hv with rfl | ⟨a, type, rfl, rfl, rfl, hi⟩
  · rfl
  · obtain ⟨e, values, -, h⟩ := object?_of_isInstance_array hi
    refine executes_proceed ⟨locals, .int (Int32.ofNat values.size) :: stack⟩ hw ?_ rfl
      (conforms_cons hl hs (fits_int rfl))
    simp only [execute, access, pop, Except.ok_bind, h]
    rfl

theorem checkIndex_cases (index : Int32) (length : Nat) :
    (∃ place, checkIndex index length = .ok place ∧ place < length) ∨
      checkIndex index length = .error (.indexOutOfBounds index length) := by
  simp only [checkIndex]
  split
  · rename_i h
    exact .inl ⟨_, rfl, by omega⟩
  · exact .inr rfl

theorem executes_arrayLoad {kind : ValueKind} {index : Int32} {v : Value} {t element : FrameValue}
    (harray : t.ArrayOf kind element) (hv : w.Has v t) (hk : v.Known known) (hw : w.Sound known)
    (hl : List.Forall₂ (w.Fits known) locals gLocals)
    (hs : List.Forall₂ (w.Fits known) stack gStack) :
    Executes m known w ⟨locals, .int index :: v :: stack⟩ (.arrayLoad kind)
      ⟨gLocals, element :: gStack⟩ := by
  rcases array_cases harray hv with rfl | ⟨a, type, rfl, rfl, rfl, hi⟩
  · rfl
  · obtain ⟨e, values, ho, h⟩ := object?_of_isInstance_array hi
    rcases checkIndex_cases index values.size with ⟨place, hplace, hlt⟩ | hout
    · refine executes_proceed ⟨locals, values.getD place .null :: stack⟩ hw
        (execute_arrayLoad h hplace) rfl (conforms_cons hl hs fun _ => hw.element hk ho hi ?_)
      simp [Array.getD, hlt]
    · refine executes_error (e := .indexOutOfBounds index values.size) ?_ rfl
      simp only [execute, access, popInt_cons, pop, Except.ok_bind, h, hout]
      rfl

theorem executes_arrayStore {kind : ValueKind} {index : Int32} {u v : Value}
    {t element : FrameValue} (harray : t.ArrayOf kind element) (hv : w.Has v t)
    (hu : u.Known known) (hw : w.Sound known) (hl : List.Forall₂ (w.Fits known) locals gLocals)
    (hs : List.Forall₂ (w.Fits known) stack gStack) :
    Executes m known w ⟨locals, u :: .int index :: v :: stack⟩ (.arrayStore kind)
      ⟨gLocals, gStack⟩ := by
  rcases array_cases harray hv with rfl | ⟨a, type, rfl, rfl, rfl, hi⟩
  · rfl
  · obtain ⟨e, values, ho, h⟩ := object?_of_isInstance_array hi
    have executed : execute w ⟨locals, u :: .int index :: .object a :: stack⟩ (.arrayStore kind) =
        (w.checkInstance u e >>= fun _ => checkIndex index values.size >>= fun place =>
          .ok (.proceed, ⟨locals, stack⟩, w.setElement a place u)) := by
      simp only [execute, access, popInt_cons, pop, Except.ok_bind, h]
      cases w.checkInstance u e with
      | error e => rfl
      | ok _ => cases checkIndex index values.size <;> rfl
    simp only [Executes, executed, World.checkInstance]
    cases hinstance : w.isInstance u e with
    | false => rfl
    | true =>
        rcases checkIndex_cases index values.size with ⟨place, hplace, -⟩ | hout
        · simp only [hplace, if_true, Except.ok_bind]
          have hevolves := w.evolves_setElement a place u
          exact ⟨hw.setElement ho hinstance hu, hevolves, .proceed rfl
            (Conforms.evolves (f := ⟨locals, stack⟩) (g := ⟨gLocals, gStack⟩) ⟨hl, hs⟩ hevolves)⟩
        · simp only [hout, if_true, Except.ok_bind]
          rfl

/-- Every instruction that has a rule executes as foreseen. -/
theorem executes_of_rule {f : ValueFrame} {g g' : Frame} (h : m.Rule g i g')
    (hg : g.WellFormed m.maxLocals.toNat) (hw : w.Sound known) (hf : f.Conforms known w g) :
    Executes m known w f i g' := by
  obtain ⟨locals, stack⟩ := f
  obtain ⟨hl, hs⟩ := hf
  cases h with
  | @fixed _ kinds given taken gLocals gStack effect operands =>
      obtain ⟨values, below, rfl, hv, hb⟩ := exists_append_of_forall₂ hs
      refine executes_fixed effect (List.forall₂_iff_get.2 ⟨?_, fun n h₁ h₂ => ?_⟩) hw hl hb
      · rw [operands.length_eq, hv.length_eq]
      · have hkind := (List.forall₂_iff_get.1 operands).2 n h₁ (operands.length_eq ▸ h₁)
        have hfits := (List.forall₂_iff_get.1 hv).2 n h₂ (hv.length_eq ▸ h₂)
        exact (hfits (FrameValue.ne_top_of_kind hkind)).imp_left fun h => h.kind hkind
  | shuffle moves =>
      obtain ⟨values, below, rfl, hv, hb⟩ := exists_append_of_forall₂ hs
      exact executes_shuffle moves (fun v hv => hg.known v (List.mem_append_left _ hv)) hv hw hl hb
  | load inRange found hasKind => exact executes_load found hw hl hs
  | store hasKind inRange =>
      obtain _ | ⟨hv, hs⟩ := hs
      refine executes_store ?_ hv hw hl hs
      have hlength := hg.localsLength
      simp only [lastSlot] at inRange
      rw [hl.length_eq, hlength]
      split at inRange <;> omega
  | increment inRange found => exact executes_increment found hw hl hs
  | invoke operands =>
      obtain ⟨values, below, rfl, hv, hb⟩ := exists_append_of_forall₂ hs
      exact executes_invoke operands hv hw hl hb
  | arrayLength array =>
      obtain _ | ⟨hv, hs⟩ := hs
      exact executes_arrayLength array (hv (hg.known _ List.mem_cons_self)).1 hw hl hs
  | arrayLoad array =>
      obtain _ | ⟨hi, _ | ⟨hv, hs⟩⟩ := hs
      obtain ⟨n, rfl⟩ := Value.eq_int_of_kind ((hi (by simp)).1.kind rfl)
      obtain ⟨hv, hk⟩ := hv (hg.known _ (List.mem_cons_of_mem _ List.mem_cons_self))
      exact executes_arrayLoad array hv hk hw hl hs
  | arrayStore hasKind array =>
      obtain _ | ⟨hu, _ | ⟨hi, _ | ⟨hv, hs⟩⟩⟩ := hs
      obtain ⟨n, rfl⟩ := Value.eq_int_of_kind ((hi (by simp)).1.kind rfl)
      obtain ⟨hv, -⟩ := hv (hg.known _
        (List.mem_cons_of_mem _ (List.mem_cons_of_mem _ List.mem_cons_self)))
      exact executes_arrayStore array hv (hu (FrameValue.ne_top_of_kind hasKind)).2 hw hl hs
  | leaveNothing returns =>
      refine ⟨hw, .refl w, .leave ?_ ?_⟩
      · simp [returns, World.Promised]
      · exact fun v hv => absurd hv (by simp)
  | leave returns fits =>
      obtain _ | ⟨hv, hs⟩ := hs
      have hmono := hv.mono fits (FrameValue.isProper_ofType _)
      obtain ⟨hv, hk⟩ := hmono (FrameValue.ofType_ne_top _)
      refine ⟨hw, .refl w, .leave ?_ fun u hu => ?_⟩
      · simpa [returns, World.Promised] using World.has_ofType.1 hv
      · cases hu
        exact hk

end ValueFrame

end Resumable
