import Resumable.Machine.Execute
import Resumable.Proofs.FrameOrder

/-!
# Values that fit frames

A value fits a frame value if it's what the frame value says, and a frame of values conforms to an
analyzed frame if all its values fit, the locals only where something is known of them.

Objects that nothing can get to don't matter.  So all of this is relative to the known addresses:
the world is sound if the elements of known arrays are instances of the arrays' element types, and
what known objects refer to is known in turn.
-/

namespace Resumable

/-- True unless the value refers to an unknown address. -/
def Value.Known (known : Nat → Prop) : Value → Prop
  | .object address => known address
  | _ => True

/-- The values that an object holds. -/
def Object.parts : Object → List Value
  | .array _ values => values.toList
  | .box content => [content]
  | .state _ stack locals => [stack, locals]
  | _ => []

namespace World

variable {known : Nat → Prop} {w w' : World} {v : Value}

/-- True if the value is what the frame value says. -/
def Has (w : World) (v : Value) : FrameValue → Prop
  | .top => True
  | .null => v = .null
  | .reference type => v.kind = .reference ∧ w.isInstance v type
  | t => t.kind? = some v.kind

/-- True if the value is what the frame value says, and all that's in it is known.  Where nothing is
known of a value it doesn't matter. -/
def Fits (known : Nat → Prop) (w : World) (v : Value) (t : FrameValue) : Prop :=
  t ≠ .top → w.Has v t ∧ v.Known known

/-- True if known arrays hold instances of their element types and known objects hold known values.
All addresses that aren't in use yet are known. -/
structure Sound (known : Nat → Prop) (w : World) : Prop where
  fresh : ∀ a, w.objects.size ≤ a → known a
  elements : ∀ a element values, known a → w.object? a = some (.array element values) →
    ∀ v ∈ values.toList, w.isInstance v element
  parts : ∀ a o, known a → w.object? a = some o → ∀ v ∈ o.parts, v.Known known

/-- True if the second world has all objects of the first one, of the same types. -/
def Evolves (w w' : World) : Prop :=
  ∀ a o, w.object? a = some o → ∃ o', w'.object? a = some o' ∧ o'.type = o.type

theorem Evolves.refl (w : World) : w.Evolves w := fun _ o h => ⟨o, h, rfl⟩

theorem Evolves.trans {w'' : World} (h : w.Evolves w') (k : w'.Evolves w'') : w.Evolves w'' := by
  intro a o ho
  obtain ⟨o', ho', ht⟩ := h a o ho
  obtain ⟨o₂, ho₂, ht₂⟩ := k a o' ho'
  exact ⟨o₂, ho₂, ht₂.trans ht⟩

theorem object?_eq_none_iff {a : Nat} : w.object? a = none ↔ w.objects.size ≤ a := by
  simp [object?]

theorem lt_size_of_object? {a : Nat} {o : Object} (h : w.object? a = some o) :
    a < w.objects.size := by
  refine Nat.lt_of_not_le fun hle => ?_
  rw [object?_eq_none_iff.2 hle] at h
  cases h

theorem Evolves.size_le (h : w.Evolves w') : w.objects.size ≤ w'.objects.size := by
  refine Nat.le_of_not_lt fun hlt => ?_
  cases ho : w.object? w'.objects.size with
  | none => exact absurd (object?_eq_none_iff.1 ho) (Nat.not_le.2 hlt)
  | some o =>
      obtain ⟨o', ho', -⟩ := h _ o ho
      exact absurd (lt_size_of_object? ho') (Nat.lt_irrefl _)

/-- A reference's type is a reference type. -/
theorem isReference_typeOf (w : World) (a : Nat) : (w.typeOf (.object a)).isReference := by
  simp only [typeOf]
  cases w.object? a with
  | none => rfl
  | some o =>
      cases o with
      | box content =>
          simp only [Option.map_some, Object.type, Option.getD_some]
          split <;> rfl
      | _ => rfl

theorem isInstance_object {a : Nat} {type : ValueType} :
    w.isInstance (.object a) type ↔
      type.isReference ∧ type.isAssignableFrom (w.typeOf (.object a)) := by
  simp only [isInstance, Bool.and_eq_true]
  constructor
  · rintro ⟨hr, ha⟩
    exact ⟨hr, by rwa [← ValueType.accepts_eq_isAssignableFrom hr (isReference_typeOf w a)]⟩
  · rintro ⟨hr, ha⟩
    exact ⟨hr, by rwa [ValueType.accepts_eq_isAssignableFrom hr (isReference_typeOf w a)]⟩

/-- Instances stay instances. -/
theorem Evolves.isInstance (h : w.Evolves w') {type : ValueType} (hv : w.isInstance v type) :
    w'.isInstance v type := by
  cases v with
  | object a =>
      rw [isInstance_object] at hv ⊢
      refine ⟨hv.1, ?_⟩
      cases ho : w.object? a with
      | some o =>
          obtain ⟨o', ho', ht⟩ := h a o ho
          simpa [typeOf, ho, ho', ht] using hv.2
      | none =>
          -- Only the root type takes a reference to nothing.
          have hroot : type = .root := by
            simp only [typeOf, ho, Option.map_none, Option.getD_none] at hv
            cases type <;> simp_all [ValueType.isAssignableFrom, ValueType.root]
          rw [hroot]
          exact ValueType.root_isAssignableFrom _
  | _ => exact hv

theorem isInstance_of_isAssignableFrom {expected actual : ValueType}
    (h : expected.isAssignableFrom actual) (hk : v.kind = .reference)
    (hv : w.isInstance v actual) : w.isInstance v expected := by
  cases v with
  | null => exact ValueType.isReference_of_isAssignableFrom h
  | object a =>
      rw [isInstance_object] at hv ⊢
      exact ⟨ValueType.isReference_of_isAssignableFrom h, ValueType.isAssignableFrom_trans h hv.2⟩
  | _ => cases hk

/-- Instances of a type are what the type's frame value says. -/
theorem has_ofType {type : ValueType} : w.Has v (.ofType type) ↔ w.isInstance v type := by
  cases type <;> cases v <;>
    simp [Has, FrameValue.ofType, isInstance, Value.kind, FrameValue.kind?, ValueType.kind,
      ValueType.isReference]

theorem has_ofKind {kind : ValueKind} : w.Has v (.ofKind kind) ↔ v.kind = kind := by
  cases kind <;> cases v <;>
    simp [Has, FrameValue.ofKind, Value.kind, FrameValue.kind?, isInstance, ValueType.root,
      ValueType.accepts, ValueType.isReference]

theorem Has.kind {t : FrameValue} {kind : ValueKind} (h : w.Has v t) (ht : t.kind? = some kind) :
    v.kind = kind := by
  cases t <;> simp_all [Has, FrameValue.kind?]
  simp [Value.kind, ← ht]

theorem Has.isWide {t : FrameValue} (h : w.Has v t) (ht : t ≠ .top) : v.isWide = t.isWide := by
  cases t <;> cases v <;>
    simp_all [Has, FrameValue.kind?, Value.isWide, FrameValue.isWide, ValueKind.isWide, Value.kind]

theorem Has.evolves {t : FrameValue} (h : w.Has v t) (hw : w.Evolves w') : w'.Has v t := by
  cases t with
  | reference type => exact ⟨h.1, hw.isInstance h.2⟩
  | _ => exact h

/-- What is what a frame value says is what every frame value above it says. -/
theorem Has.mono {s t : FrameValue} (h : w.Has v s) (hst : s.Below t) (ht : t.IsProper) :
    w.Has v t := by
  cases t with
  | top => trivial
  | reference type =>
      cases s with
      | null =>
          obtain rfl : v = .null := h
          exact ⟨rfl, ht type rfl⟩
      | reference type' => exact ⟨h.1, isInstance_of_isAssignableFrom hst h.1 h.2⟩
      | _ => simp [FrameValue.Below, FrameValue.isAssignableFrom] at hst
  | _ => cases s <;> simp_all [FrameValue.Below, FrameValue.isAssignableFrom]

theorem Fits.evolves {t : FrameValue} (h : w.Fits known v t) (hw : w.Evolves w') :
    w'.Fits known v t := fun ht => (h ht).imp_left fun hv => hv.evolves hw

theorem Fits.mono {s t : FrameValue} (h : w.Fits known v s) (hst : s.Below t) (ht : t.IsProper) :
    w.Fits known v t :=
  fun hne => (h (hst.ne_top hne)).imp_left fun hv => hv.mono hst ht

/-- The elements of known arrays fit what is known of an array's elements. -/
theorem Sound.element {a : Nat} {element type : ValueType} {values : Array Value} (hw : w.Sound known)
    (ha : known a) (ho : w.object? a = some (.array element values))
    (hi : w.isInstance (.object a) (.array type)) (hv : v ∈ values.toList) :
    w.Has v (.ofType type) ∧ v.Known known := by
  refine ⟨has_ofType.2 ?_, hw.parts a _ ha ho v hv⟩
  have helement := hw.elements a element values ha ho v hv
  have htype := (isInstance_object.1 hi).2
  simp only [typeOf, ho, Option.map_some, Object.type, Option.getD_some,
    ValueType.isAssignableFrom] at htype
  split at htype
  · rename_i hr
    simp only [Bool.and_eq_true] at hr
    refine isInstance_of_isAssignableFrom htype ?_ helement
    have := (has_ofType.2 helement).kind (FrameValue.kind_ofType element)
    cases element <;> simp_all [ValueType.isReference, ValueType.kind]
  · obtain rfl : type = element := by simpa using htype
    exact helement

/-- A new object doesn't disturb the others. -/
theorem object?_allocate (w : World) (o : Object) (a : Nat) :
    (w.allocate o).2.object? a = if a = w.objects.size then some o else w.object? a := by
  simp only [allocate, object?, Array.getElem?_push]

theorem evolves_allocate (w : World) (o : Object) : w.Evolves (w.allocate o).2 := by
  intro a o' ho'
  refine ⟨o', ?_, rfl⟩
  rw [object?_allocate, if_neg (Nat.ne_of_lt (lt_size_of_object? ho')), ho']

theorem typeOf_allocate (w : World) (o : Object) :
    (w.allocate o).2.typeOf (w.allocate o).1 = o.type := by
  simp [allocate, typeOf, object?]

/-- A new object is an instance of its type. -/
theorem isInstance_allocate (w : World) {o : Object} {type : ValueType} (hr : type.isReference)
    (h : type.isAssignableFrom o.type) : (w.allocate o).2.isInstance (w.allocate o).1 type :=
  isInstance_object.2 ⟨hr, (typeOf_allocate w o).symm ▸ h⟩

/-- A new object whose parts are known, and fit if it's an array, keeps the world sound. -/
theorem Sound.allocate {o : Object} (hw : w.Sound known)
    (helements : ∀ element values, o = .array element values →
      ∀ v ∈ values.toList, w.isInstance v element)
    (hparts : ∀ v ∈ o.parts, v.Known known) : (w.allocate o).2.Sound known := by
  refine ⟨fun a ha => hw.fresh a ?_, ?_, ?_⟩
  · exact Nat.le_trans (evolves_allocate w o).size_le ha
  · intro a element values ha ho v hv
    refine (evolves_allocate w o).isInstance ?_
    rw [object?_allocate] at ho
    split at ho
    · cases ho
      exact helements _ _ rfl v hv
    · exact hw.elements a element values ha ho v hv
  · intro a o' ha ho v hv
    rw [object?_allocate] at ho
    split at ho
    · cases ho
      exact hparts v hv
    · exact hw.parts a o' ha ho v hv

/-- What is found at an address after a value has been put into an array. -/
theorem object?_setElement (w : World) (address index a : Nat) (v : Value) :
    (w.setElement address index v).object? a =
      if a = address then (w.object? a).map fun
        | .array element values => .array element (values.setIfInBounds index v)
        | o => o
      else w.object? a := by
  simp only [setElement, object?, Array.getElem?_modify]
  split <;> rename_i h
  · subst h
    exact (if_pos rfl).symm
  · rw [if_neg (Ne.symm h)]

theorem evolves_setElement (w : World) (address index : Nat) (v : Value) :
    w.Evolves (w.setElement address index v) := by
  intro a o ho
  rw [object?_setElement, ho]
  split
  · refine ⟨_, rfl, ?_⟩
    cases o <;> rfl
  · exact ⟨o, rfl, rfl⟩

/-- An instance of the element type can be put into an array. -/
theorem Sound.setElement {address index : Nat} {element : ValueType} {values : Array Value}
    (hw : w.Sound known) (ho : w.object? address = some (.array element values))
    (hv : w.isInstance v element) (hk : v.Known known) :
    (w.setElement address index v).Sound known := by
  have hevolves := evolves_setElement w address index v
  have helements : ∀ u ∈ (values.setIfInBounds index v).toList, u = v ∨ u ∈ values.toList := by
    intro u hu
    rw [Array.toList_setIfInBounds] at hu
    exact (List.mem_or_eq_of_mem_set hu).symm
  refine ⟨fun a ha => hw.fresh a (Nat.le_trans hevolves.size_le ha), ?_, ?_⟩
  · intro a element' values' ha ho' u hu
    refine hevolves.isInstance ?_
    rw [object?_setElement] at ho'
    split at ho'
    · rename_i haddress
      subst haddress
      rw [ho] at ho'
      cases ho'
      rcases helements u hu with rfl | hu
      · exact hv
      · exact hw.elements a element values ha ho u hu
    · exact hw.elements a element' values' ha ho' u hu
  · intro a o ha ho' u hu
    rw [object?_setElement] at ho'
    split at ho'
    · rename_i haddress
      subst haddress
      rw [ho] at ho'
      cases ho'
      rcases helements u hu with rfl | hu
      · exact hk
      · exact hw.parts a _ ha ho u hu
    · exact hw.parts a o ha ho' u hu

end World

/-- True if all values of a frame fit an analyzed frame. -/
structure ValueFrame.Conforms (known : Nat → Prop) (w : World) (f : ValueFrame) (g : Frame) :
    Prop where
  locals : List.Forall₂ (w.Fits known) f.locals g.locals
  stack : List.Forall₂ (w.Fits known) f.stack g.stack

namespace ValueFrame.Conforms

variable {known : Nat → Prop} {w w' : World} {f : ValueFrame} {g g' : Frame}

theorem evolves (h : f.Conforms known w g) (hw : w.Evolves w') : f.Conforms known w' g :=
  ⟨h.locals.imp fun _ _ h => h.evolves hw, h.stack.imp fun _ _ h => h.evolves hw⟩

theorem forall₂_fits_mono {values : List Value} {s t : List FrameValue}
    (h : List.Forall₂ (w.Fits known) values s) (hst : List.Forall₂ FrameValue.Below s t)
    (ht : ∀ v ∈ t, v.IsProper) : List.Forall₂ (w.Fits known) values t := by
  induction h generalizing t with
  | nil =>
      cases hst
      exact .nil
  | cons hv _ ih =>
      cases hst with
      | cons hst hrest =>
          rw [List.forall_mem_cons] at ht
          exact .cons (hv.mono hst ht.1) (ih hrest ht.2)

/-- A frame that conforms to an analyzed frame conforms to those above it. -/
theorem mono {maxLocals : Nat} (h : f.Conforms known w g) (hg : g.Below g')
    (hwf : g'.WellFormed maxLocals) : f.Conforms known w g' :=
  ⟨forall₂_fits_mono h.locals hg.locals hwf.localsProper,
    forall₂_fits_mono h.stack hg.stack hwf.stackProper⟩

end ValueFrame.Conforms

end Resumable
