import Resumable.Instrumentation.Transform
import Resumable.Proofs.FrameOrder

/-!
# The code that saves and restores frames

All of this code runs straight through: it neither jumps nor marks a place.  What it does to frames
follows instruction by instruction from the rules.

A frame of a resumable method has the method's own locals, and after them the capability, the arrays
that the operand stack and the locals are saved in, and a scratch slot.
-/

namespace Resumable

/-- True if the instruction does nothing but lead to the next one. -/
def Instruction.isPlain (i : Instruction) : Bool :=
  i.placed? = none && i.targets.isEmpty && i.fallsThrough

theorem Instruction.isPlain_iff {i : Instruction} :
    i.isPlain ↔ i.placed? = none ∧ i.targets = [] ∧ i.fallsThrough := by
  simp [isPlain, and_assoc]

/-- True if execution runs straight through the instructions. -/
def Plain (code : List Instruction) : Prop := code.all Instruction.isPlain

theorem plain_iff {code : List Instruction} : Plain code ↔ ∀ i ∈ code, i.isPlain := List.all_eq_true

theorem plain_cons {i : Instruction} {code : List Instruction} :
    Plain (i :: code) ↔ i.isPlain ∧ Plain code := by simp [Plain]

theorem plain_append {code rest : List Instruction} :
    Plain (code ++ rest) ↔ Plain code ∧ Plain rest := by simp [Plain]

theorem plain_flatMap {α : Type} {l : List α} {f : α → List Instruction}
    (h : ∀ a ∈ l, Plain (f a)) : Plain (l.flatMap f) := by
  rw [plain_iff]
  intro i hi
  obtain ⟨a, ha, hi⟩ := List.mem_flatMap.1 hi
  exact plain_iff.1 (h a ha) i hi

namespace Snapshot

variable (t : SlotTable)

theorem plain_newArray (length : Nat) (index : UInt16) : Plain (newArray length index) := rfl

theorem plain_boxTop (kind : ValueKind) : Plain (boxTop kind) := by
  cases kind <;> rfl

theorem plain_unboxTop (v : FrameValue) : Plain (unboxTop v) := by
  cases v <;> rfl

theorem plain_loadElement (array : UInt16) (index : Nat) (v : FrameValue) :
    Plain (loadElement array index v) := by
  simp only [loadElement]
  split
  · rfl
  · exact plain_append.2 ⟨rfl, plain_unboxTop v⟩

theorem plain_saveTop (index : Nat) (v : FrameValue) : Plain (saveTop t index v) := by
  simp only [saveTop]
  split
  · rfl
  · rename_i kind _
    exact plain_append.2 ⟨plain_boxTop kind, rfl⟩

theorem plain_saveValues (stack : List FrameValue) : Plain (saveValues t stack) := by
  induction stack with
  | nil => rfl
  | cons v below ih => exact plain_append.2 ⟨plain_saveTop t _ v, ih⟩

theorem plain_saveStack (stack : List FrameValue) : Plain (saveStack t stack) :=
  plain_append.2 ⟨plain_newArray _ _, plain_saveValues t stack⟩

theorem plain_loadStack (stack : List FrameValue) : Plain (loadStack t stack) := by
  induction stack with
  | nil => rfl
  | cons v below ih => exact plain_append.2 ⟨ih, plain_loadElement _ _ _⟩

theorem plain_saveLocals (locals : List FrameValue) : Plain (saveLocals t locals) := by
  refine plain_append.2 ⟨plain_newArray _ _, plain_flatMap fun (v, index) _ => ?_⟩
  simp only [saveLocal]
  split
  · rfl
  · rename_i kind _
    split
    · rfl
    · exact plain_append.2 ⟨plain_append.2 ⟨rfl, plain_boxTop kind⟩, rfl⟩

theorem plain_loadLocals (locals : List FrameValue) : Plain (loadLocals t locals) := by
  refine plain_flatMap fun (v, index) _ => ?_
  simp only [loadLocal]
  split
  · rfl
  · exact plain_append.2 ⟨plain_loadElement _ _ _, rfl⟩

theorem plain_pushState (id : Nat) : Plain (pushState t id) := rfl

theorem plain_popState : Plain (popState t) := rfl

theorem plain_getMode : Plain (getMode t) := rfl

theorem plain_setMode (mode : Int32) : Plain (setMode t mode) := rfl

end Snapshot

/-- Straight code, with the frames before and after it. -/
inductive Method.Steps (m : Method) : Frame → List Instruction → Frame → Prop
  | nil (f : Frame) : Steps m f [] f
  | cons {f g h : Frame} {i : Instruction} {code : List Instruction} (rule : m.Rule f i g)
      (rest : Steps m g code h) : Steps m f (i :: code) h

namespace Method.Steps

variable {m : Method} {f g h : Frame} {i : Instruction} {c d : List Instruction}

theorem append (hc : m.Steps f c g) (hd : m.Steps g d h) : m.Steps f (c ++ d) h := by
  induction hc with
  | nil => exact hd
  | cons rule _ ih => exact .cons rule (ih hd)

theorem single (rule : m.Rule f i g) : m.Steps f [i] g := .cons rule (.nil g)

end Method.Steps

/-- True if the slots of a method's own code lie after the first `own` ones and are its last. -/
structure SlotTable.Follows (t : SlotTable) (m : Method) (own : Nat) : Prop where
  capability : t.capability.toNat = own
  stackArray : t.stackArray.toNat = own + 1
  localsArray : t.localsArray.toNat = own + 2
  scratch : t.scratch.toNat = own + 3
  maxLocals : m.maxLocals.toNat = own + 4

namespace Snapshot

/-- What's known of the slot of the capability. -/
def capabilityValue : FrameValue := .reference Capability.type

/-- What's known of the slots of the arrays while they're in use. -/
def arrayValue : FrameValue := .reference Capability.snapshotType

/-- What's known of the slot of a method state. -/
def stateValue : FrameValue := .reference Capability.stateType

variable {m : Method} {t : SlotTable} {own stack : List FrameValue} {c s l x v : FrameValue}

/-- Loading a reference. -/
theorem rule_loadReference {locals : List FrameValue} {index : UInt16}
    (hindex : locals[index.toNat]? = some v) (hlength : locals.length = m.maxLocals.toNat)
    (hv : v.kind? = some .reference) :
    m.Rule ⟨locals, stack⟩ (loadReference index) ⟨locals, v :: stack⟩ := by
  refine .load ?_ hindex hv
  have := (List.getElem?_eq_some_iff.1 hindex).1
  simpa [lastSlot, ValueKind.isWide, ← hlength] using this

/-- A narrow value that overlaps no wide one just takes its slot. -/
theorem storeLocals_narrow {locals : List FrameValue} {index : Nat} (hv : ¬ v.isWide)
    (hbefore : ∀ u, locals[index - 1]? = some u → ¬ u.isWide) :
    Frame.storeLocals locals index v = locals.set index v := by
  have hcleared : ¬ (0 < index ∧ (locals.getD (index - 1) .top).isWide) := by
    rintro ⟨-, hw⟩
    rw [List.getD_eq_getElem?_getD] at hw
    cases hu : locals[index - 1]? with
    | none => simp [hu, FrameValue.isWide] at hw
    | some u => exact hbefore u hu (by simpa [hu] using hw)
  simp only [Frame.storeLocals, hcleared, hv, if_false]
  rfl

theorem not_isWide_of_kind (hv : v.kind? = some .reference) : ¬ v.isWide := by
  cases v <;> simp_all [FrameValue.kind?, FrameValue.isWide]

/-- Storing a reference in a slot that overlaps no wide local. -/
theorem rule_storeReference {locals : List FrameValue} {index : UInt16}
    (hindex : index.toNat < locals.length) (hlength : locals.length = m.maxLocals.toNat)
    (hv : v.kind? = some .reference)
    (hbefore : ∀ u, locals[index.toNat - 1]? = some u → ¬ u.isWide) :
    m.Rule ⟨locals, v :: stack⟩ (storeReference index) ⟨locals.set index.toNat v, stack⟩ := by
  have hw := not_isWide_of_kind hv
  rw [← storeLocals_narrow hw hbefore]
  refine .store hv ?_
  simpa [lastSlot, hw, ← hlength] using hindex

theorem rule_pushInt (n : Nat) {locals : List FrameValue} :
    m.Rule ⟨locals, stack⟩ (pushInt n) ⟨locals, .int :: stack⟩ := Method.Rule.noOperands rfl rfl

/-- Storing one of the values that an array of references can hold. -/
theorem rule_arrayStore {locals : List FrameValue} (hv : v.kind? = some .reference) :
    m.Rule ⟨locals, v :: .int :: arrayValue :: stack⟩ (.arrayStore .reference) ⟨locals, stack⟩ :=
  .arrayStore hv (.array .root)

/-- Putting a primitive into a box. -/
theorem steps_boxTop {kind : ValueKind} (locals stack : List FrameValue) (hv : v.kind? = some kind) :
    ∃ u, u.kind? = some .reference ∧
      m.Steps ⟨locals, v :: stack⟩ (boxTop kind) ⟨locals, u :: stack⟩ := by
  cases hk : kind.numeric? with
  | none =>
      cases kind <;> simp only [ValueKind.numeric?, reduceCtorEq] at hk
      exact ⟨v, hv, .nil _⟩
  | some k =>
      refine ⟨.reference (.object k.boxTypeName), rfl, ?_⟩
      simp only [boxTop, hk]
      have hfits : List.Forall₂ (fun t v => (FrameValue.ofType t).isAssignableFrom v)
          (k.box.operandTypes .static) [v] := by
        refine .cons ?_ .nil
        cases kind <;> cases hk <;> cases v <;> cases hv <;> rfl
      exact .single (.invoke hfits)

/-- A slot of the resumable method's own code. -/
theorem getElem?_slot {α : Type} (own slots : List α) (k : Nat) :
    (own ++ slots)[own.length + k]? = slots[k]? := by
  rw [List.getElem?_append_right (Nat.le_add_right ..), Nat.add_sub_cancel_left]

theorem set_slot {α : Type} (own slots : List α) (k : Nat) (v : α) :
    (own ++ slots).set (own.length + k) v = own ++ slots.set k v := by
  rw [List.set_append_right _ _ (Nat.le_add_right ..), Nat.add_sub_cancel_left]

theorem length_slots (ht : t.Follows m own.length) :
    (own ++ [c, s, l, x]).length = m.maxLocals.toNat := by
  simp [ht.maxLocals]

/-- Storing a reference in one of the slots of the resumable method's own code, if the slot before
it doesn't hold a wide value. -/
theorem rule_storeSlot {slots : List FrameValue} {index : UInt16} (k : Nat)
    (hindex : index.toNat = own.length + (k + 1)) (hk : k + 1 < slots.length)
    (hlength : (own ++ slots).length = m.maxLocals.toNat) (hv : v.kind? = some .reference)
    (hbefore : ∀ u, slots[k]? = some u → ¬ u.isWide) :
    m.Rule ⟨own ++ slots, v :: stack⟩ (storeReference index)
      ⟨own ++ slots.set (k + 1) v, stack⟩ := by
  rw [← set_slot, ← hindex]
  refine rule_storeReference ?_ hlength hv fun u hu => hbefore u ?_
  · rw [hindex, List.length_append]
    omega
  · rwa [hindex, ← Nat.add_assoc, Nat.add_sub_cancel, getElem?_slot] at hu

theorem rule_storeStackArray (ht : t.Follows m own.length) (hc : ¬ c.isWide)
    (hv : v.kind? = some .reference) :
    m.Rule ⟨own ++ [c, s, l, x], v :: stack⟩ (storeReference t.stackArray)
      ⟨own ++ [c, v, l, x], stack⟩ :=
  rule_storeSlot 0 ht.stackArray (by simp) (length_slots ht) hv (by simpa using hc)

theorem rule_storeLocalsArray (ht : t.Follows m own.length) (hs : ¬ s.isWide)
    (hv : v.kind? = some .reference) :
    m.Rule ⟨own ++ [c, s, l, x], v :: stack⟩ (storeReference t.localsArray)
      ⟨own ++ [c, s, v, x], stack⟩ :=
  rule_storeSlot 1 ht.localsArray (by simp) (length_slots ht) hv (by simpa using hs)

theorem rule_storeScratch (ht : t.Follows m own.length) (hl : ¬ l.isWide)
    (hv : v.kind? = some .reference) :
    m.Rule ⟨own ++ [c, s, l, x], v :: stack⟩ (storeReference t.scratch)
      ⟨own ++ [c, s, l, v], stack⟩ :=
  rule_storeSlot 2 ht.scratch (by simp) (length_slots ht) hv (by simpa using hl)

theorem rule_loadCapability (ht : t.Follows m own.length) :
    m.Rule ⟨own ++ [capabilityValue, s, l, x], stack⟩ (loadReference t.capability)
      ⟨own ++ [capabilityValue, s, l, x], capabilityValue :: stack⟩ :=
  rule_loadReference (by rw [ht.capability]; exact getElem?_slot own _ 0) (length_slots ht) rfl

theorem rule_loadStackArray (ht : t.Follows m own.length) :
    m.Rule ⟨own ++ [c, arrayValue, l, x], stack⟩ (loadReference t.stackArray)
      ⟨own ++ [c, arrayValue, l, x], arrayValue :: stack⟩ :=
  rule_loadReference (by rw [ht.stackArray, getElem?_slot]; rfl) (length_slots ht) rfl

theorem rule_loadLocalsArray (ht : t.Follows m own.length) :
    m.Rule ⟨own ++ [c, s, arrayValue, x], stack⟩ (loadReference t.localsArray)
      ⟨own ++ [c, s, arrayValue, x], arrayValue :: stack⟩ :=
  rule_loadReference (by rw [ht.localsArray, getElem?_slot]; rfl) (length_slots ht) rfl

theorem rule_loadScratch (ht : t.Follows m own.length) (hx : x.kind? = some .reference) :
    m.Rule ⟨own ++ [c, s, l, x], stack⟩ (loadReference t.scratch)
      ⟨own ++ [c, s, l, x], x :: stack⟩ :=
  rule_loadReference (by rw [ht.scratch, getElem?_slot]; rfl) (length_slots ht) hx

theorem rule_newArray {locals : List FrameValue} :
    m.Rule ⟨locals, .int :: stack⟩ (.newArray .root) ⟨locals, arrayValue :: stack⟩ :=
  Method.Rule.oneOperand rfl rfl rfl

/-- Moving the top of the operand stack to the stack's array. -/
theorem steps_saveTop (stack : List FrameValue) (ht : t.Follows m own.length) (hl : ¬ l.isWide)
    (index : Nat) (hv : v ≠ .top) :
    ∃ x', m.Steps ⟨own ++ [c, arrayValue, l, x], v :: stack⟩ (saveTop t index v)
      ⟨own ++ [c, arrayValue, l, x'], stack⟩ := by
  obtain ⟨kind, hk⟩ : ∃ kind, v.kind? = some kind := by
    cases v <;> simp_all [FrameValue.kind?]
  obtain ⟨u, hu, hbox⟩ := steps_boxTop (m := m) (own ++ [c, arrayValue, l, x]) stack hk
  refine ⟨u, ?_⟩
  simp only [saveTop, hk]
  refine hbox.append (.cons (rule_storeScratch ht hl hu) (.cons (rule_loadStackArray ht) ?_))
  exact .cons (rule_pushInt index) (.cons (rule_loadScratch ht hu) (.single (rule_arrayStore hu)))

/-- Moving the whole operand stack to its array. -/
theorem steps_saveValues (ht : t.Follows m own.length) (hl : ¬ l.isWide)
    (hstack : ∀ v ∈ stack, v ≠ .top) :
    ∃ x', m.Steps ⟨own ++ [c, arrayValue, l, x], stack⟩ (saveValues t stack)
      ⟨own ++ [c, arrayValue, l, x'], []⟩ := by
  induction stack generalizing x with
  | nil => exact ⟨x, .nil _⟩
  | cons v below ih =>
      rw [List.forall_mem_cons] at hstack
      obtain ⟨x₁, h₁⟩ := steps_saveTop (c := c) (x := x) below ht hl below.length
        hstack.1
      obtain ⟨x₂, h₂⟩ := ih (x := x₁) hstack.2
      exact ⟨x₂, h₁.append h₂⟩

theorem steps_saveStack (ht : t.Follows m own.length) (hc : ¬ c.isWide) (hl : ¬ l.isWide)
    (hstack : ∀ v ∈ stack, v ≠ .top) :
    ∃ x', m.Steps ⟨own ++ [c, s, l, x], stack⟩ (saveStack t stack)
      ⟨own ++ [c, arrayValue, l, x'], []⟩ := by
  obtain ⟨x', h⟩ := steps_saveValues (c := c) (x := x) ht hl hstack
  refine ⟨x', Method.Steps.append ?_ h⟩
  exact .cons (rule_pushInt _) (.cons rule_newArray (.single (rule_storeStackArray ht hc rfl)))

/-- Making an element of an array the value that it was. -/
theorem steps_unboxTop {locals : List FrameValue} (hk : v ≠ .top) (hn : v ≠ .null)
    (hv : v.IsProper) :
    m.Steps ⟨locals, .reference .root :: stack⟩ (unboxTop v) ⟨locals, v :: stack⟩ := by
  have unbox (k : NumericKind) (hkind : v = .ofType k.type) :
      m.Steps ⟨locals, .reference .root :: stack⟩
        [.checkCast (.object k.boxTypeName), .invoke .virtual k.unbox] ⟨locals, v :: stack⟩ := by
    have effect : (Instruction.checkCast (.object k.boxTypeName)).fixedEffect? =
        some ([.reference], [.reference (.object k.boxTypeName)]) := rfl
    refine .cons (Method.Rule.oneOperand effect rfl rfl) (.single ?_)
    rw [hkind]
    have hfits : List.Forall₂ (fun t v => (FrameValue.ofType t).isAssignableFrom v)
        (k.unbox.operandTypes .virtual) [.reference (.object k.boxTypeName)] := by
      refine .cons ?_ .nil
      simp [FrameValue.ofType, FrameValue.isAssignableFrom, ValueType.isAssignableFrom,
        NumericKind.unbox]
    exact .invoke hfits
  cases v with
  | top => exact absurd rfl hk
  | null => exact absurd rfl hn
  | reference type =>
      have effect : (Instruction.checkCast type).fixedEffect? =
          some ([.reference], [.reference type]) := by
        simp [Instruction.fixedEffect?, hv type rfl]
      exact .single (Method.Rule.oneOperand effect rfl rfl)
  | int => exact unbox .int rfl
  | long => exact unbox .long rfl
  | float => exact unbox .float rfl
  | double => exact unbox .double rfl

/-- Pushing a saved value. -/
theorem steps_loadElement {locals : List FrameValue} {array : UInt16} (index : Nat)
    (harray : ∀ stack, m.Rule ⟨locals, stack⟩ (loadReference array) ⟨locals, arrayValue :: stack⟩)
    (hk : v ≠ .top) (hv : v.IsProper) :
    m.Steps ⟨locals, stack⟩ (loadElement array index v) ⟨locals, v :: stack⟩ := by
  simp only [loadElement]
  split
  · rename_i hn
    exact hn ▸ .single (Method.Rule.noOperands rfl rfl)
  · rename_i hn
    refine .cons (harray stack) (.cons (rule_pushInt index) (.cons ?_ (steps_unboxTop hk hn hv)))
    exact .arrayLoad (.array .root)

/-- Pushing all saved values of the operand stack. -/
theorem steps_loadStack (ht : t.Follows m own.length)
    (hstack : ∀ v ∈ stack, v ≠ .top ∧ v.IsProper) :
    m.Steps ⟨own ++ [c, arrayValue, l, x], []⟩ (loadStack t stack)
      ⟨own ++ [c, arrayValue, l, x], stack⟩ := by
  induction stack with
  | nil => exact .nil _
  | cons v below ih =>
      rw [List.forall_mem_cons] at hstack
      refine (ih hstack.2).append ?_
      exact steps_loadElement _ (fun _ => rule_loadStackArray ht) hstack.1.1 hstack.1.2

/-- Copying one local to the locals' array. -/
theorem steps_saveLocal (ht : t.Follows m own.length) {index : Nat} (hindex : own[index]? = some v) :
    m.Steps ⟨own ++ [c, s, arrayValue, x], stack⟩ (saveLocal t index v)
      ⟨own ++ [c, s, arrayValue, x], stack⟩ := by
  simp only [saveLocal]
  split
  · exact .nil _
  · rename_i kind hk
    split
    · exact .nil _
    · obtain ⟨u, hu, hbox⟩ := steps_boxTop (m := m) (own ++ [c, s, arrayValue, x])
        (.int :: arrayValue :: stack) hk
      have hlt := (List.getElem?_eq_some_iff.1 hindex).1
      have hmax := ht.maxLocals
      have hto : (UInt16.ofNat index).toNat = index := by
        have := m.maxLocals.toNat_lt
        rw [UInt16.toNat_ofNat']
        exact Nat.mod_eq_of_lt (by omega)
      have hload : m.Rule ⟨own ++ [c, s, arrayValue, x], .int :: arrayValue :: stack⟩
          (.load kind (.ofNat index))
          ⟨own ++ [c, s, arrayValue, x], v :: .int :: arrayValue :: stack⟩ := by
        refine .load ?_ ?_ hk
        · simp only [hto, lastSlot]
          split <;> omega
        · rw [hto, List.getElem?_append_left hlt, hindex]
      refine .cons (rule_loadLocalsArray ht) (.cons (rule_pushInt index) (.cons hload ?_))
      exact hbox.append (.single (rule_arrayStore hu))

theorem steps_flatMap_saveLocal (ht : t.Follows m own.length) (done : List FrameValue)
    {rest : List FrameValue} (hown : own = done ++ rest) :
    m.Steps ⟨own ++ [c, s, arrayValue, x], stack⟩
      ((rest.zipIdx done.length).flatMap fun (v, index) => saveLocal t index v)
      ⟨own ++ [c, s, arrayValue, x], stack⟩ := by
  induction rest generalizing done with
  | nil => exact .nil _
  | cons v rest ih =>
      rw [List.zipIdx_cons, List.flatMap_cons]
      refine (steps_saveLocal ht ?_).append ?_
      · simp [hown]
      · have := ih (done ++ [v]) (by simp [hown])
        simpa using this

/-- Copying the locals to a new array. -/
theorem steps_saveLocals (ht : t.Follows m own.length) (hs : ¬ s.isWide) :
    m.Steps ⟨own ++ [c, s, l, x], stack⟩ (saveLocals t own)
      ⟨own ++ [c, s, arrayValue, x], stack⟩ := by
  refine Method.Steps.append ?_ (steps_flatMap_saveLocal ht [] rfl)
  exact .cons (rule_pushInt _) (.cons rule_newArray (.single (rule_storeLocalsArray ht hs rfl)))

/-- A value that has room among a method's own locals leaves the other slots alone. -/
theorem storeLocals_append {current slots : List FrameValue} {index : Nat}
    (hroom : lastSlot index v.isWide < current.length) :
    Frame.storeLocals (current ++ slots) index v =
      Frame.storeLocals current index v ++ slots := by
  refine List.ext_getElem? fun i => ?_
  have hright : (Frame.storeLocals current index v ++ slots)[i]? =
      if i < current.length then (Frame.storeLocals current index v)[i]?
      else slots[i - current.length]? := by
    rw [List.getElem?_append, Frame.length_storeLocals]
  rw [hright, Frame.getElem?_storeLocals, Frame.getElem?_storeLocals]
  simp only [lastSlot] at hroom
  by_cases hi : i < current.length
  · have hi' : i < (current ++ slots).length := by
      rw [List.length_append]
      omega
    simp only [hi, hi', if_true, List.getD_eq_getElem?_getD, List.getElem?_append_left]
  · rw [if_neg hi]
    have hne : i ≠ index := by
      rintro rfl
      split at hroom <;> omega
    have hsecond : ¬ (v.isWide ∧ i = index + 1) := by
      rintro ⟨hw, rfl⟩
      rw [if_pos hw] at hroom
      omega
    have hbefore : ¬ (i + 1 = index ∧ ((current ++ slots).getD i .top).isWide) := by
      rintro ⟨rfl, -⟩
      split at hroom <;> omega
    rw [if_neg hne, if_neg hsecond, if_neg hbefore, List.getElem?_append_right (by omega)]
    split
    · rfl
    · rename_i hlength
      rw [List.length_append] at hlength
      exact (List.getElem?_eq_none_iff.2 (by omega)).symm

/-- True if the first locals are those that are to be restored, as far as something is known of
them. -/
def RestoredUpTo (n : Nat) (current goal : List FrameValue) : Prop :=
  ∀ j v, j < n → goal[j]? = some v → ∃ u, current[j]? = some u ∧ u.Below v

namespace RestoredUpTo

variable {n : Nat} {current goal : List FrameValue}

theorem forall₂_below (h : RestoredUpTo goal.length current goal)
    (hlength : current.length = goal.length) : List.Forall₂ FrameValue.Below current goal := by
  refine List.forall₂_iff_get.2 ⟨hlength, fun j h₁ h₂ => ?_⟩
  obtain ⟨u, hu, hbelow⟩ := h j goal[j] h₂ (List.getElem?_eq_getElem h₂)
  rw [List.getElem?_eq_getElem h₁] at hu
  cases hu
  exact hbelow

/-- A local of which nothing is known is restored as it is. -/
theorem succ_of_top (h : RestoredUpTo n current goal) (htop : goal[n]? = some .top)
    (hn : n < current.length) : RestoredUpTo (n + 1) current goal := by
  intro j u hj hu
  rcases Nat.lt_succ_iff_lt_or_eq.1 hj with hj' | rfl
  · exact h j u hj' hu
  · obtain rfl := Option.some.inj (htop.symm.trans hu)
    exact ⟨_, List.getElem?_eq_getElem hn, FrameValue.below_top _⟩

/-- Storing the next local leaves the ones before it restored: a wide value that's overlapped isn't
what the frame has there. -/
theorem store (h : RestoredUpTo n current goal) (hlength : current.length = goal.length)
    (hpaired : Frame.Paired goal) (hv : goal[n]? = some v) (hne : v ≠ .top) (hproper : v.IsProper) :
    RestoredUpTo (n + 1) (Frame.storeLocals current n v) goal := by
  intro j u hj hu
  have hjlt : j < current.length := hlength ▸ (List.getElem?_eq_some_iff.1 hu).1
  rw [Frame.getElem?_storeLocals, if_pos hjlt]
  rcases Nat.lt_succ_iff_lt_or_eq.1 hj with hj' | rfl
  · obtain ⟨u', hu', hbelow⟩ := h j u hj' hu
    rw [if_neg (by omega), if_neg (by omega)]
    split
    · rename_i hbefore
      have hut : u = .top := Decidable.byContradiction fun hut => by
        have hw : u'.isWide := by simpa [List.getD_eq_getElem?_getD, hu'] using hbefore.2
        rw [FrameValue.isWide_eq_of_isAssignableFrom hbelow hut] at hw
        have := hpaired j u hu hw
        rw [hbefore.1, hv] at this
        exact hne (Option.some.inj this)
      rw [hut]
      exact ⟨.top, rfl, FrameValue.below_top _⟩
    · exact ⟨u', hu', hbelow⟩
  · obtain rfl : v = u := Option.some.inj (hv.symm.trans hu)
    exact ⟨v, by simp, .refl hproper⟩

end RestoredUpTo

/-- Restoring a local of which something is known. -/
theorem steps_loadLocal {current : List FrameValue} {index : Nat} {kind : ValueKind}
    (ht : t.Follows m current.length) (hk : v.kind? = some kind) (hproper : v.IsProper)
    (hroom : lastSlot index v.isWide < current.length) :
    m.Steps ⟨current ++ [c, s, arrayValue, x], stack⟩ (loadLocal t index v)
      ⟨Frame.storeLocals current index v ++ [c, s, arrayValue, x], stack⟩ := by
  have hmax := ht.maxLocals
  have hto : (UInt16.ofNat index).toNat = index := by
    have := m.maxLocals.toNat_lt
    have : index ≤ lastSlot index v.isWide := by
      simp only [lastSlot]
      split <;> omega
    rw [UInt16.toNat_ofNat']
    exact Nat.mod_eq_of_lt (by omega)
  have hload : m.Steps ⟨current ++ [c, s, arrayValue, x], stack⟩
      (loadElement t.localsArray index v) ⟨current ++ [c, s, arrayValue, x], v :: stack⟩ :=
    steps_loadElement index (fun _ => rule_loadLocalsArray ht) (FrameValue.ne_top_of_kind hk) hproper
  have hrange : lastSlot (UInt16.ofNat index).toNat v.isWide < m.maxLocals.toNat := by
    rw [hto]
    omega
  have hstore : m.Rule ⟨current ++ [c, s, arrayValue, x], v :: stack⟩ (.store kind (.ofNat index))
      ⟨Frame.storeLocals (current ++ [c, s, arrayValue, x]) (UInt16.ofNat index).toNat v, stack⟩ :=
    .store hk hrange
  rw [hto, storeLocals_append hroom] at hstore
  simp only [loadLocal, hk]
  exact hload.append (.single hstore)

/-- Restoring the locals, one after the other, on top of whatever was there before. -/
theorem steps_flatMap_loadLocal (done : List FrameValue) {goal rest current : List FrameValue}
    (ht : t.Follows m goal.length) (hgoal : goal = done ++ rest)
    (hlength : current.length = goal.length) (hpaired : Frame.Paired goal)
    (hproper : ∀ v ∈ goal, v.IsProper) (hdone : RestoredUpTo done.length current goal) :
    ∃ restored, List.Forall₂ FrameValue.Below restored goal ∧
      m.Steps ⟨current ++ [c, s, arrayValue, x], stack⟩
        ((rest.zipIdx done.length).flatMap fun (v, index) => loadLocal t index v)
        ⟨restored ++ [c, s, arrayValue, x], stack⟩ := by
  induction rest generalizing done current with
  | nil =>
      obtain rfl : goal = done := hgoal.trans (List.append_nil done)
      exact ⟨current, hdone.forall₂_below hlength, .nil _⟩
  | cons v rest ih =>
      have hv : goal[done.length]? = some v := by simp [hgoal]
      have hlt := (List.getElem?_eq_some_iff.1 hv).1
      have hgoal' : goal = (done ++ [v]) ++ rest := by simp [hgoal]
      have hcount : (done ++ [v]).length = done.length + 1 := List.length_append
      simp only [List.zipIdx_cons, List.flatMap_cons]
      cases hk : v.kind? with
      | none =>
          obtain rfl := FrameValue.eq_top_of_kind hk
          obtain ⟨restored, hrestored, hsteps⟩ := ih _ hgoal' hlength
            (hcount ▸ hdone.succ_of_top hv (hlength ▸ hlt))
          rw [hcount] at hsteps
          exact ⟨restored, hrestored, hsteps⟩
      | some kind =>
          have hne := FrameValue.ne_top_of_kind hk
          have hprop := hproper v (List.mem_of_getElem? hv)
          have hroom : lastSlot done.length v.isWide < current.length := by
            rw [hlength]
            simp only [lastSlot]
            split
            · exact (List.getElem?_eq_some_iff.1 (hpaired _ v hv ‹_›)).1
            · exact hlt
          obtain ⟨restored, hrestored, hsteps⟩ := ih _ hgoal'
            (by rw [Frame.length_storeLocals, hlength])
            (hcount ▸ hdone.store hlength hpaired hv hne hprop)
          rw [hcount] at hsteps
          exact ⟨restored, hrestored,
            (steps_loadLocal (hlength ▸ ht) hk hprop hroom).append hsteps⟩

/-- Restoring the locals. -/
theorem steps_loadLocals {goal current : List FrameValue} (ht : t.Follows m goal.length)
    (hlength : current.length = goal.length) (hpaired : Frame.Paired goal)
    (hproper : ∀ v ∈ goal, v.IsProper) :
    ∃ restored, List.Forall₂ FrameValue.Below restored goal ∧
      m.Steps ⟨current ++ [c, s, arrayValue, x], stack⟩ (loadLocals t goal)
        ⟨restored ++ [c, s, arrayValue, x], stack⟩ :=
  steps_flatMap_loadLocal [] ht rfl hlength hpaired hproper fun j _ hj =>
    absurd hj (Nat.not_lt_zero j)

/-- Invoking a method on operands that are just what it takes. -/
theorem rule_invoke {kind : InvokeKind} {method : MethodRef} {locals taken given : List FrameValue}
    (htaken : taken = (method.operandTypes kind).map FrameValue.ofType)
    (hgiven : given = (method.type.returns.map FrameValue.ofType).toList) :
    m.Rule ⟨locals, taken ++ stack⟩ (.invoke kind method) ⟨locals, given ++ stack⟩ := by
  subst htaken hgiven
  refine .invoke ?_
  generalize method.operandTypes kind = types
  induction types with
  | nil => exact .nil
  | cons type types ih =>
      exact .cons (FrameValue.isAssignableFrom_refl (FrameValue.isProper_ofType type)) ih

/-- Pushing a state of the arrays onto the capability. -/
theorem steps_pushState (ht : t.Follows m own.length) (id : Nat) :
    m.Steps ⟨own ++ [capabilityValue, arrayValue, arrayValue, x], stack⟩ (pushState t id)
      ⟨own ++ [capabilityValue, arrayValue, arrayValue, x], stack⟩ := by
  have create : m.Rule ⟨own ++ [capabilityValue, arrayValue, arrayValue, x],
        [arrayValue, arrayValue, .int] ++ capabilityValue :: stack⟩
      (.invoke .static Capability.createState) ⟨own ++ [capabilityValue, arrayValue, arrayValue, x],
        [stateValue] ++ capabilityValue :: stack⟩ := rule_invoke rfl rfl
  have push : m.Rule ⟨own ++ [capabilityValue, arrayValue, arrayValue, x],
        [stateValue, capabilityValue] ++ stack⟩
      (.invoke .virtual Capability.pushState)
      ⟨own ++ [capabilityValue, arrayValue, arrayValue, x], [] ++ stack⟩ := rule_invoke rfl rfl
  refine .cons (rule_loadCapability ht) (.cons (rule_pushInt id) (.cons (rule_loadStackArray ht)
    (.cons (rule_loadLocalsArray ht) ?_)))
  exact .cons create (.single push)

/-- Popping a state from the capability and taking the arrays out of it. -/
theorem steps_popState (ht : t.Follows m own.length) (hl : ¬ l.isWide) :
    m.Steps ⟨own ++ [capabilityValue, s, l, x], stack⟩ (popState t)
      ⟨own ++ [capabilityValue, arrayValue, arrayValue, stateValue], stack⟩ := by
  have pop : m.Rule ⟨own ++ [capabilityValue, s, l, x], [capabilityValue] ++ stack⟩
      (.invoke .virtual Capability.popState)
      ⟨own ++ [capabilityValue, s, l, x], [stateValue] ++ stack⟩ := rule_invoke rfl rfl
  have getStack : m.Rule ⟨own ++ [capabilityValue, s, l, stateValue], [stateValue] ++ stack⟩
      (.invoke .virtual Capability.getStack)
      ⟨own ++ [capabilityValue, s, l, stateValue], [arrayValue] ++ stack⟩ := rule_invoke rfl rfl
  have getLocals : m.Rule
      ⟨own ++ [capabilityValue, arrayValue, l, stateValue], [stateValue] ++ stack⟩
      (.invoke .virtual Capability.getLocals)
      ⟨own ++ [capabilityValue, arrayValue, l, stateValue], [arrayValue] ++ stack⟩ :=
    rule_invoke rfl rfl
  refine .cons (rule_loadCapability ht) (.cons pop (.cons (rule_storeScratch ht hl rfl) ?_))
  refine .cons (rule_loadScratch ht rfl) (.cons getStack ?_)
  refine .cons (rule_storeStackArray ht (by simp [capabilityValue, FrameValue.isWide]) rfl) ?_
  refine .cons (rule_loadScratch ht rfl) (.cons getLocals (.single ?_))
  exact rule_storeLocalsArray ht (by simp [arrayValue, FrameValue.isWide]) rfl

theorem steps_getMode (ht : t.Follows m own.length) :
    m.Steps ⟨own ++ [capabilityValue, s, l, x], stack⟩ (getMode t)
      ⟨own ++ [capabilityValue, s, l, x], .int :: stack⟩ := by
  have get : m.Rule ⟨own ++ [capabilityValue, s, l, x], [capabilityValue] ++ stack⟩
      (.invoke .virtual Capability.getMode)
      ⟨own ++ [capabilityValue, s, l, x], [.int] ++ stack⟩ := rule_invoke rfl rfl
  exact .cons (rule_loadCapability ht) (.single get)

theorem steps_setMode (ht : t.Follows m own.length) (mode : Int32) :
    m.Steps ⟨own ++ [capabilityValue, s, l, x], stack⟩ (setMode t mode)
      ⟨own ++ [capabilityValue, s, l, x], stack⟩ := by
  have set : m.Rule ⟨own ++ [capabilityValue, s, l, x], [.int, capabilityValue] ++ stack⟩
      (.invoke .virtual Capability.setMode)
      ⟨own ++ [capabilityValue, s, l, x], [] ++ stack⟩ := rule_invoke rfl rfl
  exact .cons (rule_loadCapability ht) (.cons (Method.Rule.noOperands rfl rfl) (.single set))

end Snapshot

end Resumable
