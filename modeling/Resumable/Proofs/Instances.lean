import Resumable.Proofs.Execution
import Resumable.Proofs.Starts

/-!
# Instances and assignability

The analysis decides by types what the machine decides by objects: a reference known to be of one
type may be used as another one exactly if the objects of the first type are instances of the other
one.  Casts, array stores and the arguments of calls all go by instances.
-/

namespace Resumable

namespace World

variable {w : World} {v : Value} {source target type super : ValueType}

/-- True if the value refers to an object of the given type. -/
def RefersTo (w : World) (v : Value) (source : ValueType) : Prop :=
  ∃ a o, v = .object a ∧ w.object? a = some o ∧ o.type = source

/-- There are objects of every reference type. -/
theorem exists_refersTo (h : source.isReference) : ∃ w v, RefersTo w v source := by
  obtain ⟨o, ho⟩ : ∃ o : Object, o.type = source := by
    cases source with
    | object name => exact ⟨.plain name, rfl⟩
    | array element => exact ⟨.array element #[], rfl⟩
    | _ => cases h
  exact ⟨⟨#[o], #[], []⟩, .object 0, 0, o, rfl, rfl, ho⟩

theorem RefersTo.typeOf (h : w.RefersTo v source) : w.typeOf v = source := by
  obtain ⟨a, o, rfl, ho, htype⟩ := h
  simp only [World.typeOf, ho, Option.map_some, Option.getD_some, htype]

/-- Objects are instances of the types to which their own type can be assigned. -/
theorem RefersTo.isInstance_iff (h : w.RefersTo v source) :
    w.isInstance v target ↔ (FrameValue.reference target).isAssignableFrom (.reference source) := by
  have htype := h.typeOf
  obtain ⟨a, o, rfl, -, -⟩ := h
  rw [isInstance_object, htype]
  exact ⟨And.right, fun h => ⟨ValueType.isReference_of_isAssignableFrom h, h⟩⟩

/-- What's an instance of a reference type is one of every type to which that can be assigned. -/
theorem isInstance_super (htype : type.isReference)
    (h : (FrameValue.reference super).isAssignableFrom (.reference type))
    (hv : w.isInstance v type) : w.isInstance v super := by
  refine isInstance_of_isAssignableFrom h ?_ hv
  cases type <;> cases v <;>
    simp_all [ValueType.isReference, isInstance, Value.kind, ValueType.kind]

/-- Arguments are accepted exactly if their types can be assigned to those of the parameters. -/
theorem checkArguments_of_refersTo {method : MethodRef} {kind : InvokeKind} {args : List Value}
    {sources : List ValueType} (h : List.Forall₂ w.RefersTo args sources) :
    Machine.checkArguments w method kind args = .ok () ↔
      List.Forall₂ (fun source target =>
        (FrameValue.reference target).isAssignableFrom (.reference source)) sources
        (Machine.argumentTypes method kind) := by
  rw [Machine.checkArguments_eq_ok]
  generalize Machine.argumentTypes method kind = targets
  induction h generalizing targets with
  | nil => cases targets <;> simp
  | cons hv _ ih =>
      cases targets with
      | nil => simp
      | cons target targets =>
          rw [List.forall₂_cons, List.forall₂_cons, hv.isInstance_iff, ih]

end World

namespace ValueFrame

variable {w : World} {v : Value} {locals stack : List Value} {type : ValueType}

/-- A cast leaves instances of its type as they are, and fails for all other values. -/
theorem execute_checkCast_eq : execute w ⟨locals, v :: stack⟩ (.checkCast type) =
    if w.isInstance v type then .ok (.proceed, ⟨locals, v :: stack⟩, w)
    else .error (.classCast type (w.typeOf v)) := by
  split
  · exact execute_checkCast ‹_›
  · have hfails : w.checkInstance v type = .error (.classCast type (w.typeOf v)) := if_neg ‹_›
    simp only [execute, access, pop, Except.ok_bind, hfails]
    rfl

/-- An array stores instances of its element type, and fails for all other values. -/
theorem execute_arrayStore_eq {u : Value} {a place : Nat} {element : ValueType} {kind : ValueKind}
    {elements : Array Value} {index : Int32} (h : w.array u = .ok (a, element, elements))
    (hplace : checkIndex index elements.size = .ok place) :
    execute w ⟨locals, v :: .int index :: u :: stack⟩ (.arrayStore kind) =
      if w.isInstance v element then .ok (.proceed, ⟨locals, stack⟩, w.setElement a place v)
      else .error (.classCast element (w.typeOf v)) := by
  split
  · exact execute_arrayStore h ‹_› hplace
  · have hfails : w.checkInstance v element = .error (.classCast element (w.typeOf v)) := if_neg ‹_›
    simp only [execute, access, popInt_cons, pop, Except.ok_bind, h, hfails]
    rfl

end ValueFrame

namespace World

/-- An object of one type is an instance of another one exactly if the analysis lets references of
its type be used as such of the other one.  So its casts and stores go through exactly if they
analyze, and so do calls that it's an argument of.  Whatever can be cast to a reference type can be
cast to all types to which that can be assigned. -/
theorem instances_agree :
    (∀ source : ValueType, source.isReference → ∃ w v, RefersTo w v source) ∧
    (∀ w v source, RefersTo w v source → ∀ target : ValueType,
      (w.isInstance v target ↔ (FrameValue.reference target).isAssignableFrom (.reference source)) ∧
      (∀ locals stack, ValueFrame.execute w ⟨locals, v :: stack⟩ (.checkCast target) =
        if (FrameValue.reference target).isAssignableFrom (.reference source) then
          .ok (.proceed, ⟨locals, v :: stack⟩, w)
        else .error (.classCast target source)) ∧
      ∀ locals stack kind u a elements index place, w.array u = .ok (a, target, elements) →
        checkIndex index elements.size = .ok place →
        ValueFrame.execute w ⟨locals, v :: .int index :: u :: stack⟩ (.arrayStore kind) =
          if (FrameValue.reference target).isAssignableFrom (.reference source) then
            .ok (.proceed, ⟨locals, stack⟩, w.setElement a place v)
          else .error (.classCast target source)) ∧
    (∀ w args sources method kind, List.Forall₂ (RefersTo w) args sources →
      (Machine.checkArguments w method kind args = .ok () ↔
        List.Forall₂ (fun source target =>
          (FrameValue.reference target).isAssignableFrom (.reference source)) sources
          (Machine.argumentTypes method kind))) ∧
    ∀ type super : ValueType, type.isReference →
      (FrameValue.reference super).isAssignableFrom (.reference type) →
      ∀ w v locals stack x, ValueFrame.execute w ⟨locals, v :: stack⟩ (.checkCast type) = .ok x →
        ValueFrame.execute w ⟨locals, v :: stack⟩ (.checkCast super) = .ok x := by
  refine ⟨fun _ => exists_refersTo, fun w v source h target => ⟨h.isInstance_iff, ?_, ?_⟩,
    fun w args sources method kind => checkArguments_of_refersTo, ?_⟩
  · intro locals stack
    simp only [ValueFrame.execute_checkCast_eq, h.isInstance_iff, h.typeOf]
  · intro locals stack kind u a elements index place harray hplace
    simp only [ValueFrame.execute_arrayStore_eq harray hplace, h.isInstance_iff, h.typeOf]
  · intro type super htype hsuper w v locals stack x hcast
    rw [ValueFrame.execute_checkCast_eq] at hcast ⊢
    split at hcast
    · rwa [if_pos (isInstance_super htype hsuper ‹_›)]
    · cases hcast

/-- An array of arrays of ints is an array of objects, but not one of arrays of longs. -/
theorem instances_agree_nested :
    RefersTo ⟨#[.array (.array .int) #[]], #[], []⟩ (.object 0) (.array (.array .int)) ∧
      isInstance ⟨#[.array (.array .int) #[]], #[], []⟩ (.object 0) (.array .root) ∧
      ¬ isInstance ⟨#[.array (.array .int) #[]], #[], []⟩ (.object 0) (.array (.array .long)) := by
  have h : RefersTo ⟨#[.array (.array .int) #[]], #[], []⟩ (.object 0) (.array (.array .int)) :=
    ⟨0, _, rfl, rfl, rfl⟩
  obtain ⟨-, hagree, -⟩ := instances_agree
  refine ⟨h, (hagree _ _ _ h _).1.2 (by decide), fun hlongs => ?_⟩
  exact absurd ((hagree _ _ _ h _).1.1 hlongs) (by decide)

end World

end Resumable
