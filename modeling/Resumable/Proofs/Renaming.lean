import Resumable.Proofs.Conformance

/-!
# Worlds that are the same but for addresses

Two runs that do the same need not use the same addresses, and one of them may make objects of which
the other knows nothing.  A renaming says which address of one world stands for which address of
another.  Objects without a partner don't matter, and neither do the modes and states of
capabilities.

A renaming grows while two runs go on side by side.  `World.Matching` says what they may do to their
worlds then: new pairs are pairs of new objects, and what has no partner stays as it is.
-/

namespace Resumable

/-- The pairs of addresses that stand for each other. -/
abbrev Renaming := Nat → Nat → Prop

/-- The pairs of a renaming, and one more. -/
def Renaming.insert (ρ : Renaming) (b b' : Nat) : Renaming := fun a a' =>
  ρ a a' ∨ a = b ∧ a' = b'

/-- True if the values are the same but for the addresses of objects. -/
inductive Value.Renamed (ρ : Renaming) : Value → Value → Prop
  | null : Renamed ρ .null .null
  | int (n : Int32) : Renamed ρ (.int n) (.int n)
  | long (n : Int64) : Renamed ρ (.long n) (.long n)
  | float (word : UInt32) : Renamed ρ (.float word) (.float word)
  | double (word : UInt64) : Renamed ρ (.double word) (.double word)
  | object {a a' : Nat} (pair : ρ a a') : Renamed ρ (.object a) (.object a')

/-- True if the objects are the same but for the addresses in them. -/
inductive Object.Renamed (ρ : Renaming) : Object → Object → Prop
  | string (s : String) : Renamed ρ (.string s) (.string s)
  | array (element : ValueType) {values values' : Array Value}
      (elements : List.Forall₂ (Value.Renamed ρ) values.toList values'.toList) :
      Renamed ρ (.array element values) (.array element values')
  | box {content content' : Value} (inside : content.Renamed ρ content') :
      Renamed ρ (.box content) (.box content')
  | capability (cell : Nat) : Renamed ρ (.capability cell) (.capability cell)
  | state (point : Int32) {stack stack' locals locals' : Value} (onStack : stack.Renamed ρ stack')
      (inLocals : locals.Renamed ρ locals') :
      Renamed ρ (.state point stack locals) (.state point stack' locals')
  | plain (typeName : String) : Renamed ρ (.plain typeName) (.plain typeName)

/-- True if the worlds are the same but for addresses and for objects without a partner. -/
structure World.Renamed (ρ : Renaming) (w w' : World) : Prop where
  injective : ∀ a b a' b', ρ a a' → ρ b b' → (a = b ↔ a' = b')
  objects : ∀ a a', ρ a a' →
    ∃ o o', w.object? a = some o ∧ w'.object? a' = some o' ∧ o.Renamed ρ o'
  journal : w'.journal = w.journal

/-- True if an object may have become the other: nothing can change but what an array holds. -/
inductive Object.Becomes : Object → Object → Prop
  | same (o : Object) : Becomes o o
  | array (element : ValueType) (values values' : Array Value) :
      Becomes (.array element values) (.array element values')

/-- True if the second world may have come from the first one. -/
def World.Proceeds (w w' : World) : Prop :=
  ∀ a o, w.object? a = some o → ∃ o', w'.object? a = some o' ∧ o.Becomes o'

/-- True if two runs may have changed their worlds so: new pairs are pairs of new objects, and in
the second world, objects without a partner are what they were. -/
structure World.Matching (ρ ρ' : Renaming) (w w' u u' : World) : Prop where
  mono : ∀ a a', ρ a a' → ρ' a a'
  fresh : ∀ a a', ρ' a a' → ρ a a' ∨ w.objects.size ≤ a ∧ w'.objects.size ≤ a'
  kept : ∀ a', a' < w'.objects.size → (∀ a, ¬ ρ a a') → u'.object? a' = w'.object? a'
  proceeds : w.Proceeds u
  proceeds' : w'.Proceeds u'

namespace Value.Renamed

variable {ρ ρ' : Renaming} {v v' : Value}

theorem mono (h : v.Renamed ρ v') (hρ : ∀ a a', ρ a a' → ρ' a a') : v.Renamed ρ' v' := by
  cases h with
  | object pair => exact .object (hρ _ _ pair)
  | null => exact .null
  | int n => exact .int n
  | long n => exact .long n
  | float word => exact .float word
  | double word => exact .double word

theorem kind (h : v.Renamed ρ v') : v'.kind = v.kind := by
  cases h <;> rfl

theorem isWide (h : v.Renamed ρ v') : v'.isWide = v.isWide := by
  simp only [Value.isWide, h.kind]

theorem isNull (h : v.Renamed ρ v') : v'.isNull = v.isNull := by
  cases h <;> rfl

theorem refl_of_kind {kind : NumericKind} (h : v.kind = kind.toValueKind) : v.Renamed ρ v := by
  cases v with
  | null => exact .null
  | int n => exact .int n
  | long n => exact .long n
  | float word => exact .float word
  | double word => exact .double word
  | object a => cases kind <;> cases h

theorem zero (kind : ValueKind) : (Value.zero kind).Renamed ρ (.zero kind) := by
  cases kind
  · exact .int 0
  · exact .long 0
  · exact .float 0
  · exact .double 0
  · exact .null

end Value.Renamed

namespace Object.Renamed

variable {ρ ρ' : Renaming} {o o' : Object}

theorem mono (h : o.Renamed ρ o') (hρ : ∀ a a', ρ a a' → ρ' a a') : o.Renamed ρ' o' := by
  cases h with
  | string s => exact .string s
  | array element elements => exact .array element (elements.imp fun _ _ h => h.mono hρ)
  | box inside => exact .box (inside.mono hρ)
  | capability cell => exact .capability cell
  | state point onStack inLocals => exact .state point (onStack.mono hρ) (inLocals.mono hρ)
  | plain typeName => exact .plain typeName

theorem type (h : o.Renamed ρ o') : o'.type = o.type := by
  cases h with
  | box inside => simp only [Object.type, inside.kind]
  | _ => rfl

end Object.Renamed

namespace Object.Becomes

variable {o o' o₂ : Object}

theorem trans (h : o.Becomes o') (k : o'.Becomes o₂) : o.Becomes o₂ := by
  cases h with
  | same => exact k
  | array element values values' =>
      cases k with
      | same => exact .array element values values'
      | array _ _ values₂ => exact .array element values values₂

theorem type (h : o.Becomes o') : o'.type = o.type := by
  cases h <;> rfl

end Object.Becomes

namespace World

variable {ρ ρ' ρ₂ : Renaming} {w w' u u' v v' : World}

namespace Proceeds

theorem refl (w : World) : w.Proceeds w := fun _ o h => ⟨o, h, .same o⟩

theorem trans (h : w.Proceeds u) (k : u.Proceeds v) : w.Proceeds v := by
  intro a o ho
  obtain ⟨o', ho', hbecomes⟩ := h a o ho
  obtain ⟨o₂, ho₂, hbecomes'⟩ := k a o' ho'
  exact ⟨o₂, ho₂, hbecomes.trans hbecomes'⟩

theorem evolves (h : w.Proceeds u) : w.Evolves u := by
  intro a o ho
  obtain ⟨o', ho', hbecomes⟩ := h a o ho
  exact ⟨o', ho', hbecomes.type⟩

theorem allocate (w : World) (o : Object) : w.Proceeds (w.allocate o).2 := by
  intro a p hp
  refine ⟨p, ?_, .same p⟩
  rw [object?_allocate, if_neg (Nat.ne_of_lt (lt_size_of_object? hp)), hp]

theorem setElement (w : World) (address index : Nat) (x : Value) :
    w.Proceeds (w.setElement address index x) := by
  intro a o ho
  rw [object?_setElement, ho]
  split
  · refine ⟨_, rfl, ?_⟩
    cases o with
    | array element values => exact .array element values _
    | _ => exact .same _
  · exact ⟨o, rfl, .same o⟩

/-- Saved states stay as they are. -/
theorem state (h : w.Proceeds u) {a : Nat} {point : Int32} {stack locals : Value}
    (ha : w.object? a = some (.state point stack locals)) :
    u.object? a = some (.state point stack locals) := by
  obtain ⟨o, ho, hbecomes⟩ := h a _ ha
  cases hbecomes
  exact ho

/-- Whatever stands for a capability goes on standing for it. -/
theorem capability (h : w.Proceeds u) {a cell : Nat} (ha : w.object? a = some (.capability cell)) :
    u.object? a = some (.capability cell) := by
  obtain ⟨o, ho, hbecomes⟩ := h a _ ha
  cases hbecomes
  exact ho

end Proceeds

namespace Matching

theorem refl (ρ : Renaming) (w w' : World) : Matching ρ ρ w w' w w' :=
  ⟨fun _ _ h => h, fun _ _ h => .inl h, fun _ _ _ => rfl, .refl w, .refl w'⟩

end Matching

namespace Renamed

variable {a a' : Nat} {x x' : Value} {type : ValueType}

/-- An address that's in use on one side only has no partner. -/
theorem lt_size (h : w.Renamed ρ w') (ha : ρ a a') :
    a < w.objects.size ∧ a' < w'.objects.size := by
  obtain ⟨o, o', ho, ho', -⟩ := h.objects a a' ha
  exact ⟨lt_size_of_object? ho, lt_size_of_object? ho'⟩

theorem object?_of_pair {o : Object} (h : w.Renamed ρ w') (ha : ρ a a')
    (ho : w.object? a = some o) : ∃ o', w'.object? a' = some o' ∧ o.Renamed ρ o' := by
  obtain ⟨o₁, o', ho₁, ho', hr⟩ := h.objects a a' ha
  obtain rfl : o₁ = o := Option.some.inj (ho₁.symm.trans ho)
  exact ⟨o', ho', hr⟩

theorem typeOf (h : w.Renamed ρ w') (hx : x.Renamed ρ x') : w'.typeOf x' = w.typeOf x := by
  cases hx with
  | object pair =>
      obtain ⟨o, o', ho, ho', hr⟩ := h.objects _ _ pair
      simp only [World.typeOf, ho, ho', Option.map_some, hr.type]
  | _ => rfl

theorem isInstance (h : w.Renamed ρ w') (hx : x.Renamed ρ x') (type : ValueType) :
    w'.isInstance x' type = w.isInstance x type := by
  cases hx with
  | object pair => simp only [World.isInstance, h.typeOf (.object pair)]
  | _ => rfl

/-- References are the same on both sides, or on none. -/
theorem eq_iff (h : w.Renamed ρ w') {y y' : Value} (hx : x.Renamed ρ x') (hy : y.Renamed ρ y') :
    x' = y' ↔ x = y := by
  cases hx with
  | object pair =>
      cases hy with
      | object pair' =>
          simp only [Value.object.injEq]
          exact (h.injective _ _ _ _ pair pair').symm
      | _ => simp
  | _ => cases hy <;> simp

/-- New objects on both sides become partners. -/
theorem allocate {o o' : Object} (h : w.Renamed ρ w') (ho : o.Renamed ρ o') :
    ∃ ρ', Matching ρ ρ' w w' (w.allocate o).2 (w'.allocate o').2 ∧
      (w.allocate o).2.Renamed ρ' (w'.allocate o').2 ∧
      (w.allocate o).1.Renamed ρ' (w'.allocate o').1 := by
  have hmono : ∀ a a', ρ a a' → ρ.insert w.objects.size w'.objects.size a a' :=
    fun a a' ha => .inl ha
  refine ⟨ρ.insert w.objects.size w'.objects.size, ⟨hmono, ?_, ?_, .allocate w o,
    .allocate w' o'⟩, ⟨?_, ?_, h.journal⟩, .object (.inr ⟨rfl, rfl⟩)⟩
  · rintro a a' (ha | ⟨rfl, rfl⟩)
    · exact .inl ha
    · exact .inr ⟨Nat.le_refl _, Nat.le_refl _⟩
  · intro a' hlt _
    rw [object?_allocate, if_neg (Nat.ne_of_lt hlt)]
  · rintro a b a' b' (ha | ⟨rfl, rfl⟩) (hb | ⟨rfl, rfl⟩)
    · exact h.injective a b a' b' ha hb
    · have := h.lt_size ha
      omega
    · have := h.lt_size hb
      omega
    · simp
  · rintro a a' (ha | ⟨rfl, rfl⟩)
    · obtain ⟨p, p', hp, hp', hr⟩ := h.objects a a' ha
      have hlt := h.lt_size ha
      refine ⟨p, p', ?_, ?_, hr.mono hmono⟩
      · rw [object?_allocate, if_neg (Nat.ne_of_lt hlt.1), hp]
      · rw [object?_allocate, if_neg (Nat.ne_of_lt hlt.2), hp']
    · refine ⟨o, o', ?_, ?_, ho.mono hmono⟩
      · rw [object?_allocate, if_pos rfl]
      · rw [object?_allocate, if_pos rfl]

/-- Putting values that stand for each other into arrays that stand for each other. -/
theorem setElement (h : w.Renamed ρ w') (ha : ρ a a') (hx : x.Renamed ρ x') (index : Nat) :
    (w.setElement a index x).Renamed ρ (w'.setElement a' index x') := by
  refine ⟨h.injective, fun b b' hb => ?_, h.journal⟩
  obtain ⟨o, o', ho, ho', hr⟩ := h.objects b b' hb
  rw [object?_setElement, object?_setElement, ho, ho']
  by_cases hab : b = a
  · rw [if_pos hab, if_pos ((h.injective _ _ _ _ hb ha).1 hab)]
    refine ⟨_, _, rfl, rfl, ?_⟩
    cases hr with
    | array element elements =>
        refine .array element ?_
        rw [Array.toList_setIfInBounds, Array.toList_setIfInBounds]
        exact forall₂_set elements index hx
    | string s => exact .string s
    | box inside => exact .box inside
    | capability cell => exact .capability cell
    | state point onStack inLocals => exact .state point onStack inLocals
    | plain typeName => exact .plain typeName
  · rw [if_neg hab, if_neg (mt (h.injective _ _ _ _ hb ha).2 hab)]
    exact ⟨o, o', rfl, rfl, hr⟩

theorem matching_setElement (ha : ρ a a') (index : Nat) (x x' : Value) :
    Matching ρ ρ w w' (w.setElement a index x) (w'.setElement a' index x') := by
  refine ⟨fun _ _ h => h, fun _ _ h => .inl h, fun b' _ hno => ?_,
    .setElement w a index x, .setElement w' a' index x'⟩
  rw [object?_setElement, if_neg]
  rintro rfl
  exact hno a ha

end Renamed

end World

end Resumable
