import Resumable.Proofs.Natives

/-!
# What the library promises

The natives of the library get their arguments as the analysis has checked them, but aren't told
how they've been invoked.  Nearly all of them do with that: whatever the objects are that the machine
has made so far, what they return is of the type that their descriptor names, or they fail.

Boxing isn't among them.  Invoked as a static method it boxes its argument.  Invoked as a virtual one,
it's given a box in front of its argument, and boxes the box.  What it returns then is an object of
the root type in the place of a box.
-/

namespace Resumable

namespace World

/-- True if the object at the address is the state of a method. -/
def IsState (w : World) (a : Nat) : Prop :=
  ∃ point stack locals, w.object? a = some (.state point stack locals)

/-- True if the states of methods hold arrays of objects, and capabilities hold states. -/
structure Genuine (w : World) : Prop where
  snapshots : ∀ a point stack locals, w.object? a = some (.state point stack locals) →
    w.isInstance stack Capability.snapshotType ∧ w.isInstance locals Capability.snapshotType
  pushed : ∀ n, ∀ a ∈ (w.cell n).states, w.IsState a

variable {w w' : World}

theorem genuine_empty : World.empty.Genuine := by
  constructor
  · intro a point stack locals ho
    simp [empty, object?] at ho
  · intro n a ha
    simp [empty, cell, CapabilityCell.initial] at ha

/-- States and capabilities keep to the rules if no state gets lost, new states hold arrays of
objects, and no capability gets anything but states. -/
theorem Genuine.of_kept (hw : w.Genuine) (evolves : w.Evolves w')
    (states : ∀ a, w.IsState a → w'.IsState a)
    (snapshots : ∀ a point stack locals, w'.object? a = some (.state point stack locals) →
      w.object? a = some (.state point stack locals) ∨
        w.isInstance stack Capability.snapshotType ∧ w.isInstance locals Capability.snapshotType)
    (pushed : ∀ n, ∀ a ∈ (w'.cell n).states, a ∈ (w.cell n).states ∨ w.IsState a) :
    w'.Genuine := by
  constructor
  · intro a point stack locals ho
    have hheld : w.isInstance stack Capability.snapshotType ∧
        w.isInstance locals Capability.snapshotType := by
      rcases snapshots a point stack locals ho with ho | hheld
      · exact hw.snapshots a point stack locals ho
      · exact hheld
    exact ⟨evolves.isInstance hheld.1, evolves.isInstance hheld.2⟩
  · intro n a ha
    rcases pushed n a ha with ha | ha
    · exact states a (hw.pushed n a ha)
    · exact states a ha

theorem isState_allocate (o : Object) {a : Nat} (h : w.IsState a) : (w.allocate o).2.IsState a := by
  obtain ⟨point, stack, locals, ho⟩ := h
  refine ⟨point, stack, locals, ?_⟩
  rw [object?_allocate, if_neg (Nat.ne_of_lt (lt_size_of_object? ho)), ho]

/-- A new object keeps to the rules, if it's not a state or holds what a state should. -/
theorem Genuine.allocate (hw : w.Genuine) {o : Object}
    (ho : ∀ point stack locals, o = .state point stack locals →
      w.isInstance stack Capability.snapshotType ∧ w.isInstance locals Capability.snapshotType) :
    (w.allocate o).2.Genuine := by
  apply hw.of_kept (evolves_allocate w o) fun a => isState_allocate o
  · intro a point stack locals ha
    rw [object?_allocate] at ha
    by_cases hnew : a = w.objects.size
    · rw [if_pos hnew] at ha
      exact .inr (ho point stack locals (Option.some.inj ha))
    · rw [if_neg hnew] at ha
      exact .inl ha
  · intro n a ha
    exact .inl ha

theorem Genuine.setElement (hw : w.Genuine) (address index : Nat) (v : Value) :
    (w.setElement address index v).Genuine := by
  have hstate (a : Nat) (point : Int32) (stack locals : Value) :
      (w.setElement address index v).object? a = some (.state point stack locals) ↔
        w.object? a = some (.state point stack locals) := by
    rw [object?_setElement]
    by_cases ha : a = address
    · rw [if_pos ha]
      cases w.object? a with
      | none => rfl
      | some o => cases o <;> simp
    · rw [if_neg ha]
  apply hw.of_kept (evolves_setElement w address index v)
  · rintro a ⟨point, stack, locals, ho⟩
    exact ⟨point, stack, locals, (hstate a point stack locals).2 ho⟩
  · intro a point stack locals ho
    exact .inl ((hstate a point stack locals).1 ho)
  · intro n a ha
    exact .inl ha

theorem states_modifyCell (n k a : Nat) (f : CapabilityCell → CapabilityCell)
    (h : a ∈ ((w.modifyCell n f).cell k).states) :
    a ∈ (w.cell k).states ∨ a ∈ (f (w.cell n)).states := by
  simp only [cell, modifyCell, Array.getD_eq_getD_getElem?, Array.getElem?_modify] at h ⊢
  by_cases hk : n = k
  · subst hk
    rw [if_pos rfl] at h
    cases hcell : w.capabilities[n]? with
    | none =>
        rw [hcell] at h
        exact .inl h
    | some c =>
        rw [hcell] at h
        exact .inr h
  · rw [if_neg hk] at h
    exact .inl h

/-- A change of a capability keeps to the rules if the capability is left with states. -/
theorem Genuine.modifyCell (hw : w.Genuine) {n : Nat} {f : CapabilityCell → CapabilityCell}
    (hf : ∀ a ∈ (f (w.cell n)).states, w.IsState a) : (w.modifyCell n f).Genuine := by
  have evolves : w.Evolves (w.modifyCell n f) := .refl w
  apply hw.of_kept evolves fun a => id
  · intro a point stack locals ho
    exact .inl ho
  · intro k a ha
    rcases states_modifyCell n k a f ha with ha | ha
    · exact .inl ha
    · exact .inr (hf a ha)

theorem Genuine.newCapability (hw : w.Genuine) : w.newCapability.2.Genuine := by
  have evolves : w.Evolves w.newCapability.2 := .refl w
  apply hw.of_kept evolves fun a => id
  · intro a point stack locals ho
    exact .inl ho
  · intro n a ha
    simp only [World.newCapability, cell, Array.getD_eq_getD_getElem?, Array.getElem?_push] at ha ⊢
    by_cases hn : n = w.capabilities.size
    · rw [if_pos hn] at ha
      cases ha
    · rw [if_neg hn] at ha
      exact .inl ha

/-- True if the second world may come of the first one by a native of the library: objects stay what
they are, and there are no other arrays. -/
structure Follows (w w' : World) : Prop where
  genuine : w'.Genuine
  evolves : w.Evolves w'
  arrays : ∀ a element values, w'.object? a = some (.array element values) →
    w.object? a = some (.array element values)

theorem Follows.refl (hw : w.Genuine) : w.Follows w := ⟨hw, .refl w, fun _ _ _ => id⟩

theorem Follows.modifyCell (hw : w.Genuine) {n : Nat} {f : CapabilityCell → CapabilityCell}
    (hf : ∀ a ∈ (f (w.cell n)).states, w.IsState a) : w.Follows (w.modifyCell n f) :=
  ⟨hw.modifyCell hf, .refl w, fun _ _ _ => id⟩

theorem Follows.allocate (hw : w.Genuine) {o : Object}
    (notArray : ∀ element values, o ≠ .array element values)
    (ho : ∀ point stack locals, o = .state point stack locals →
      w.isInstance stack Capability.snapshotType ∧ w.isInstance locals Capability.snapshotType) :
    w.Follows (w.allocate o).2 := by
  refine ⟨hw.allocate ho, evolves_allocate w o, ?_⟩
  intro a element values ha
  rw [object?_allocate] at ha
  by_cases hnew : a = w.objects.size
  · rw [if_pos hnew] at ha
    exact absurd (Option.some.inj ha) (notArray element values)
  · rw [if_neg hnew] at ha
    exact ha

/-- What an invocation of a native of the library comes to, if the native keeps its promise: it has
failed and changed nothing, or its result is of the type that its descriptor names. -/
inductive Honours (w : World) (returns : Option ValueType) :
    Except MachineError (Option Value) × World → Prop
  | fails (e : MachineError) : Honours w returns (.error e, w)
  | gives {result : Option Value} {w' : World} (promised : w'.Promised result returns)
      (follows : w.Follows w') : Honours w returns (.ok result, w')

end World

namespace Library

open World

variable {w : World} {args : List Value} {returns : Option ValueType}
  {operation : World → List Value → Outcome}

theorem honours_native
    (h : ∀ result w', operation w args = .ok (result, w') →
      w'.Promised result returns ∧ w.Follows w') :
    w.Honours returns (native operation w args) := by
  unfold native
  cases hanswer : operation w args with
  | error e => exact .fails e
  | ok answer =>
      obtain ⟨result, w'⟩ := answer
      obtain ⟨promised, follows⟩ := h result w' hanswer
      exact .gives promised follows

/-- What only looks at the world keeps the promise if what it finds does. -/
theorem honours_of_unchanged (hw : w.Genuine)
    (h : ∀ result w', operation w args = .ok (result, w') →
      w' = w ∧ w.Promised result returns) :
    w.Honours returns (native operation w args) := by
  apply honours_native
  intro result w' hanswer
  obtain ⟨rfl, promised⟩ := h result w' hanswer
  exact ⟨promised, .refl hw⟩

theorem honours_getMode (hw : w.Genuine) : w.Honours (some .int) (native getMode w args) := by
  apply honours_of_unchanged hw
  intro result w' h
  obtain ⟨cell, -, h⟩ := Except.bind_eq_ok.1 h
  cases h
  exact ⟨rfl, rfl⟩

theorem honours_setMode (hw : w.Genuine) : w.Honours none (native setMode w args) := by
  apply honours_native
  intro result w' h
  obtain ⟨cell, -, h⟩ := Except.bind_eq_ok.1 h
  obtain ⟨mode, -, h⟩ := Except.bind_eq_ok.1 h
  cases h
  exact ⟨trivial, .modifyCell hw (hw.pushed cell)⟩

theorem isState_of_stateArgument {index a : Nat} (h : stateArgument w args index = .ok a) :
    w.IsState a := by
  unfold stateArgument at h
  split at h
  · split at h
    · rename_i point stack locals ho
      cases h
      exact ⟨point, stack, locals, ho⟩
    · cases h
  · cases h

theorem honours_pushState (hw : w.Genuine) : w.Honours none (native pushState w args) := by
  apply honours_native
  intro result w' h
  obtain ⟨state, hstate, h⟩ := Except.bind_eq_ok.1 h
  obtain ⟨cell, -, h⟩ := Except.bind_eq_ok.1 h
  cases h
  refine ⟨trivial, .modifyCell hw ?_⟩
  intro a ha
  rcases List.mem_cons.1 ha with rfl | ha
  · exact isState_of_stateArgument hstate
  · exact hw.pushed cell a ha

theorem isInstance_of_isState {a : Nat} (h : w.IsState a) :
    w.isInstance (.object a) Capability.stateType := by
  obtain ⟨point, stack, locals, ho⟩ := h
  rw [isInstance_object]
  refine ⟨rfl, ?_⟩
  rw [typeOf, ho]
  exact ValueType.isAssignableFrom_refl _ rfl

theorem honours_popState (hw : w.Genuine) :
    w.Honours (some Capability.stateType) (native popState w args) := by
  apply honours_native
  intro result w' h
  obtain ⟨cell, -, h⟩ := Except.bind_eq_ok.1 h
  unfold CapabilityCell.pop? at h
  cases hstates : (w.cell cell).states with
  | nil =>
      rw [hstates] at h
      cases h
  | cons state rest =>
      have hpushed := hw.pushed cell
      rw [hstates] at h hpushed
      cases h
      have hfollows : w.Follows (w.modifyCell cell fun _ =>
          ⟨if rest.isEmpty then Capability.normal else (w.cell cell).mode, rest⟩) :=
        .modifyCell hw fun a ha => hpushed a (List.mem_cons_of_mem _ ha)
      have hstate := isInstance_of_isState (hpushed state List.mem_cons_self)
      exact ⟨hfollows.evolves.isInstance hstate, hfollows⟩

/-- A state is made for arrays of objects only, and not of an object. -/
theorem honours_createState (hw : w.Genuine) {kind : InvokeKind}
    (fit : List.Forall₂ (fun v t => w.isInstance v t) args
      (Machine.argumentTypes Capability.createState kind)) :
    w.Honours (some Capability.stateType) (native createState w args) := by
  apply honours_native
  intro result w' h
  cases kind with
  | virtual =>
      have hlength : args.length = 4 := fit.length_eq
      unfold createState at h
      split at h
      · cases hlength
      · cases h
      · cases h
  | static =>
      obtain _ | ⟨-, _ | ⟨hstack, _ | ⟨hlocals, _ | _⟩⟩⟩ := fit
      unfold createState at h
      split at h
      · rename_i point stack locals heq
        cases heq
        cases h
        refine ⟨isInstance_allocate w rfl (ValueType.isAssignableFrom_refl _ rfl),
          .allocate hw (by simp) ?_⟩
        intro point' stack' locals' heq
        cases heq
        exact ⟨hstack, hlocals⟩
      · cases h
      · cases h

theorem object_of_methodState {parts : Int32 × Value × Value} (h : methodState w args = .ok parts) :
    ∃ a, w.object? a = some (.state parts.1 parts.2.1 parts.2.2) := by
  unfold methodState at h
  obtain ⟨o, ho, h⟩ := Except.bind_eq_ok.1 h
  obtain ⟨a, -, -, ha⟩ := receiver_eq_ok ho
  cases o with
  | state point stack locals =>
      cases h
      exact ⟨a, ha⟩
  | _ => cases h

theorem honours_getPoint (hw : w.Genuine) : w.Honours (some .int) (native getPoint w args) := by
  apply honours_of_unchanged hw
  intro result w' h
  obtain ⟨parts, -, h⟩ := Except.bind_eq_ok.1 h
  cases h
  exact ⟨rfl, rfl⟩

theorem honours_getStack (hw : w.Genuine) :
    w.Honours (some Capability.snapshotType) (native getStack w args) := by
  apply honours_of_unchanged hw
  intro result w' h
  obtain ⟨parts, hparts, h⟩ := Except.bind_eq_ok.1 h
  cases h
  obtain ⟨a, ha⟩ := object_of_methodState hparts
  exact ⟨rfl, (hw.snapshots a _ _ _ ha).1⟩

theorem honours_getLocals (hw : w.Genuine) :
    w.Honours (some Capability.snapshotType) (native getLocals w args) := by
  apply honours_of_unchanged hw
  intro result w' h
  obtain ⟨parts, hparts, h⟩ := Except.bind_eq_ok.1 h
  cases h
  obtain ⟨a, ha⟩ := object_of_methodState hparts
  exact ⟨rfl, (hw.snapshots a _ _ _ ha).2⟩

theorem kind_of_isInstance_type {k : NumericKind} {v : Value} (h : w.isInstance v k.type) :
    v.kind = k.toValueKind := by
  cases k <;> cases v <;> simp_all [isInstance, NumericKind.type, NumericKind.toValueKind,
    Value.kind, ValueType.kind, ValueType.isReference]

theorem isInstance_type_of_kind {k : NumericKind} {v : Value} (h : v.kind = k.toValueKind) :
    w.isInstance v k.type := by
  cases k <;> cases v <;> simp_all [isInstance, NumericKind.type, NumericKind.toValueKind,
    Value.kind, ValueType.kind]

/-- A box for a value has the type of such boxes if and only if the value is of their kind. -/
theorem type_box_eq_iff {k : NumericKind} {v : Value} :
    (Object.box v).type = .object k.boxTypeName ↔ v.kind = k.toValueKind := by
  cases k <;> cases v <;> simp [Object.type, Value.kind, ValueKind.numeric?,
    NumericKind.boxTypeName, NumericKind.toValueKind, ValueType.root, rootTypeName]

/-- Nothing but a box of a kind can be used where one is expected. -/
theorem isAssignableFrom_boxType {k : NumericKind} {type : ValueType} :
    (ValueType.object k.boxTypeName).isAssignableFrom type ↔ type = .object k.boxTypeName := by
  cases k <;> cases type <;> simp [ValueType.isAssignableFrom, NumericKind.boxTypeName,
    rootTypeName, eq_comm]

/-- Invoked as a static method, boxing makes a box of its kind. -/
theorem honours_box (hw : w.Genuine) {k : NumericKind}
    (fit : List.Forall₂ (fun v t => w.isInstance v t) args
      (Machine.argumentTypes k.box .static)) :
    w.Honours (some (.object k.boxTypeName)) (native box w args) := by
  obtain _ | ⟨hcontent, _ | _⟩ := fit
  apply honours_native
  intro result w' h
  cases h
  have htype := type_box_eq_iff.2 (kind_of_isInstance_type hcontent)
  exact ⟨isInstance_allocate w rfl (isAssignableFrom_boxType.2 htype),
    .allocate hw (by simp) (by simp)⟩

/-- What's taken out of a box of a kind is of that kind, whatever else has been boxed. -/
theorem kind_of_unbox {k : NumericKind} {kind : InvokeKind} {result : Option Value} {w' : World}
    (fit : List.Forall₂ (fun v t => w.isInstance v t) args (Machine.argumentTypes k.unbox kind))
    (h : unbox w args = .ok (result, w')) :
    w' = w ∧ ∃ v, result = some v ∧ v.kind = k.toValueKind := by
  unfold unbox at h
  obtain ⟨o, ho, h⟩ := Except.bind_eq_ok.1 h
  obtain ⟨a, rest, rfl, ha⟩ := receiver_eq_ok ho
  cases kind with
  | static => cases fit
  | virtual =>
      obtain _ | ⟨hbox, -⟩ := fit
      cases o with
      | box content =>
          cases h
          refine ⟨rfl, content, rfl, ?_⟩
          rw [isInstance_object, typeOf, ha] at hbox
          exact type_box_eq_iff.1 (isAssignableFrom_boxType.1 hbox.2)
      | _ => cases h

theorem honours_unbox (hw : w.Genuine) {k : NumericKind} {kind : InvokeKind}
    (fit : List.Forall₂ (fun v t => w.isInstance v t) args (Machine.argumentTypes k.unbox kind)) :
    w.Honours (some k.type) (native unbox w args) := by
  apply honours_of_unchanged hw
  intro result w' h
  obtain ⟨rfl, v, rfl, hkind⟩ := kind_of_unbox fit h
  exact ⟨rfl, isInstance_type_of_kind hkind⟩

/-- Invoked as a virtual method, boxing makes an object that can't be used as a box. -/
theorem box_of_virtual {k : NumericKind}
    (fit : List.Forall₂ (fun v t => w.isInstance v t) args
      (Machine.argumentTypes k.box .virtual))
    (receiver : args.head?.all Value.isNull = false) :
    ∃ v w', native box w args = (.ok (some v), w') ∧ w'.typeOf v = .root ∧
      ¬w'.Promised (some v) k.box.type.returns := by
  obtain _ | @⟨object, -, rest, -, hobject, -⟩ := fit
  cases object with
  | object a =>
      let boxed := w.allocate (.box (.object a))
      have htype : boxed.2.typeOf boxed.1 = .root := typeOf_allocate w _
      refine ⟨boxed.1, boxed.2, rfl, htype, ?_⟩
      intro hpromised
      have hinstance : (ValueType.object k.boxTypeName).isAssignableFrom
          (boxed.2.typeOf boxed.1) := (isInstance_object.1 hpromised).2
      rw [htype, isAssignableFrom_boxType] at hinstance
      cases k <;> simp [ValueType.root, rootTypeName, NumericKind.boxTypeName] at hinstance
  | null => cases receiver
  | _ => simp [isInstance, Value.kind, ValueType.kind] at hobject

theorem exists_operation {method : MethodRef} {n : Native} (h : natives.lookup method = some n) :
    ∃ operation, (method, operation) ∈ operations ∧ n = native operation := by
  obtain ⟨before, after, heq, -⟩ := List.lookup_eq_some_iff.1 h
  have hmem : (method, n) ∈ natives := by simp [heq]
  obtain ⟨⟨method', operation⟩, hoperation, heq⟩ := List.mem_map.1 hmem
  cases heq
  exact ⟨operation, hoperation, rfl⟩

/-- The natives of the library keep what their descriptors promise, but for boxing that's invoked as a
virtual method. -/
theorem honours_of_lookup {method : MethodRef} {n : Native} {kind : InvokeKind}
    (h : natives.lookup method = some n) (hw : w.Genuine)
    (fit : List.Forall₂ (fun v t => w.isInstance v t) args (Machine.argumentTypes method kind))
    (boxing : kind = .virtual → ∀ k : NumericKind, method ≠ k.box) :
    w.Honours method.type.returns (n w args) := by
  obtain ⟨operation, hmem, rfl⟩ := exists_operation h
  simp only [operations, List.mem_append, List.mem_cons, List.not_mem_nil, or_false,
    List.mem_flatMap, Prod.mk.injEq] at hmem
  rcases hmem with (⟨rfl, rfl⟩ | ⟨rfl, rfl⟩ | ⟨rfl, rfl⟩ | ⟨rfl, rfl⟩ | ⟨rfl, rfl⟩ | ⟨rfl, rfl⟩ |
    ⟨rfl, rfl⟩ | ⟨rfl, rfl⟩ | ⟨rfl, rfl⟩) | ⟨k, -, ⟨rfl, rfl⟩ | ⟨rfl, rfl⟩⟩
  · exact .fails _
  · exact honours_getMode hw
  · exact honours_setMode hw
  · exact honours_pushState hw
  · exact honours_popState hw
  · exact honours_createState hw fit
  · exact honours_getPoint hw
  · exact honours_getStack hw
  · exact honours_getLocals hw
  · cases kind with
    | static => exact honours_box hw fit
    | virtual => exact absurd rfl (boxing rfl k)
  · exact honours_unbox hw fit

end Library

end Resumable
