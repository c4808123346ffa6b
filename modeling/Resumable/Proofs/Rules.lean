import Mathlib.Data.List.Forall2
import Resumable.Analysis.Rules
import Resumable.Proofs.Assignability
import Resumable.Proofs.Results

/-!
# The rules of the instructions as a relation

`Method.Rule` says once what each instruction does to a frame, leaving aside the room on the operand
stack.  `Method.transfer` gives a frame exactly if the rule relates it and it has room; if a rule
relates a frame that has no room, the stack overflows and nothing else is wrong.
-/

namespace Resumable

/-- The instructions that move values on the operand stack: what they take and what they leave in
its place, the topmost value first. -/
inductive Shuffle {α : Type} (wide : α → Bool) : Instruction → List α → List α → Prop
  | pop {a : α} : ¬ wide a → Shuffle wide .pop [a] []
  | pop2Wide {a : α} : wide a → Shuffle wide .pop2 [a] []
  | pop2 {a b : α} : ¬ wide a → ¬ wide b → Shuffle wide .pop2 [a, b] []
  | dup {a : α} : ¬ wide a → Shuffle wide .dup [a] [a, a]
  | dupX1 {a b : α} : ¬ wide a → ¬ wide b → Shuffle wide .dupX1 [a, b] [a, b, a]
  | dupX2Wide {a b : α} : ¬ wide a → wide b → Shuffle wide .dupX2 [a, b] [a, b, a]
  | dupX2 {a b c : α} : ¬ wide a → ¬ wide b → ¬ wide c → Shuffle wide .dupX2 [a, b, c] [a, b, c, a]
  | dup2Wide {a : α} : wide a → Shuffle wide .dup2 [a] [a, a]
  | dup2 {a b : α} : ¬ wide a → ¬ wide b → Shuffle wide .dup2 [a, b] [a, b, a, b]
  | swap {a b : α} : ¬ wide a → ¬ wide b → Shuffle wide .swap [a, b] [b, a]

namespace Shuffle

variable {α β : Type} {wide : α → Bool} {wide' : β → Bool} {i : Instruction} {taken given : List α}

/-- Everything that's left was taken. -/
theorem mem_taken {v : α} (h : Shuffle wide i taken given) (hv : v ∈ given) : v ∈ taken := by
  cases h <;> simp only [List.mem_cons, List.not_mem_nil, or_false] at hv ⊢ <;> grind

/-- Related values can be moved in the same way, if the relation keeps the number of slots. -/
theorem map {R : α → β → Prop} (hR : ∀ a b, R a b → wide a = wide' b)
    (h : Shuffle wide i taken given) {taken' : List β} (ht : List.Forall₂ R taken taken') :
    ∃ given', Shuffle wide' i taken' given' ∧ List.Forall₂ R given given' := by
  cases h with
  | pop ha =>
      obtain _ | ⟨h₁, _ | _⟩ := ht
      exact ⟨_, .pop (hR _ _ h₁ ▸ ha), .nil⟩
  | pop2Wide ha =>
      obtain _ | ⟨h₁, _ | _⟩ := ht
      exact ⟨_, .pop2Wide (hR _ _ h₁ ▸ ha), .nil⟩
  | pop2 ha hb =>
      obtain _ | ⟨h₁, _ | ⟨h₂, _ | _⟩⟩ := ht
      exact ⟨_, .pop2 (hR _ _ h₁ ▸ ha) (hR _ _ h₂ ▸ hb), .nil⟩
  | dup ha =>
      obtain _ | ⟨h₁, _ | _⟩ := ht
      exact ⟨_, .dup (hR _ _ h₁ ▸ ha), .cons h₁ (.cons h₁ .nil)⟩
  | dupX1 ha hb =>
      obtain _ | ⟨h₁, _ | ⟨h₂, _ | _⟩⟩ := ht
      exact ⟨_, .dupX1 (hR _ _ h₁ ▸ ha) (hR _ _ h₂ ▸ hb), .cons h₁ (.cons h₂ (.cons h₁ .nil))⟩
  | dupX2Wide ha hb =>
      obtain _ | ⟨h₁, _ | ⟨h₂, _ | _⟩⟩ := ht
      exact ⟨_, .dupX2Wide (hR _ _ h₁ ▸ ha) (hR _ _ h₂ ▸ hb),
        .cons h₁ (.cons h₂ (.cons h₁ .nil))⟩
  | dupX2 ha hb hc =>
      obtain _ | ⟨h₁, _ | ⟨h₂, _ | ⟨h₃, _ | _⟩⟩⟩ := ht
      exact ⟨_, .dupX2 (hR _ _ h₁ ▸ ha) (hR _ _ h₂ ▸ hb) (hR _ _ h₃ ▸ hc),
        .cons h₁ (.cons h₂ (.cons h₃ (.cons h₁ .nil)))⟩
  | dup2Wide ha =>
      obtain _ | ⟨h₁, _ | _⟩ := ht
      exact ⟨_, .dup2Wide (hR _ _ h₁ ▸ ha), .cons h₁ (.cons h₁ .nil)⟩
  | dup2 ha hb =>
      obtain _ | ⟨h₁, _ | ⟨h₂, _ | _⟩⟩ := ht
      exact ⟨_, .dup2 (hR _ _ h₁ ▸ ha) (hR _ _ h₂ ▸ hb),
        .cons h₁ (.cons h₂ (.cons h₁ (.cons h₂ .nil)))⟩
  | swap ha hb =>
      obtain _ | ⟨h₁, _ | ⟨h₂, _ | _⟩⟩ := ht
      exact ⟨_, .swap (hR _ _ h₁ ▸ ha) (hR _ _ h₂ ▸ hb), .cons h₂ (.cons h₁ .nil)⟩

end Shuffle

/-- The kinds of the operands, the topmost first, and what is left in their place, for instructions
of which that's all. -/
def Instruction.fixedEffect? : Instruction → Option (List ValueKind × List FrameValue)
  | label _ | nop | goto _ => some ([], [])
  | const c => some ([], [Method.constantValue c])
  | binary op kind =>
    if op.isIntegralOnly ∧ (kind = .float ∨ kind = .double) then none
    else
      some ([if op.isShift then .int else kind.toValueKind, kind.toValueKind],
        [.ofKind kind.toValueKind])
  | negate kind => some ([kind.toValueKind], [.ofKind kind.toValueKind])
  | convert source target => some ([source.toValueKind], [.ofKind target.toValueKind])
  | compare kind _ => some ([kind.toValueKind, kind.toValueKind], [.int])
  | ifZero .. | tableSwitch .. | lookupSwitch .. => some ([.int], [])
  | ifCompare .. => some ([.int, .int], [])
  | ifSame .. => some ([.reference, .reference], [])
  | ifNull .. | throw | monitorEnter | monitorExit => some ([.reference], [])
  | newArray element => some ([.int], [.reference (.array element)])
  | checkCast type => if type.isReference then some ([.reference], [.reference type]) else none
  | instanceOf type => if type.isReference then some ([.reference], [.int]) else none
  | _ => none

/-- The types of the operands of an invocation, the topmost first. -/
def MethodRef.operandTypes (method : MethodRef) (kind : InvokeKind) : List ValueType :=
  method.type.params.reverse ++ if kind = .virtual then [.object method.owner] else []

/-- What can be used as an array with elements of a kind, and what is known of its elements. -/
inductive FrameValue.ArrayOf : FrameValue → ValueKind → FrameValue → Prop
  | null (kind : ValueKind) :
      ArrayOf .null kind (if kind = .reference then .null else .ofKind kind)
  | array (element : ValueType) : ArrayOf (.reference (.array element)) element.kind (.ofType element)

/-- The index of the last slot of a value. -/
def lastSlot (index : Nat) (wide : Bool) : Nat := if wide then index + 1 else index

/-- The frames before and after an instruction of a method. -/
inductive Method.Rule (m : Method) : Frame → Instruction → Frame → Prop
  | fixed {i : Instruction} {kinds : List ValueKind} {given taken locals stack : List FrameValue}
      (effect : i.fixedEffect? = some (kinds, given))
      (operands : List.Forall₂ (fun k v => v.kind? = some k) kinds taken) :
      Rule m ⟨locals, taken ++ stack⟩ i ⟨locals, given ++ stack⟩
  | shuffle {i : Instruction} {taken given locals stack : List FrameValue}
      (moves : Shuffle FrameValue.isWide i taken given) :
      Rule m ⟨locals, taken ++ stack⟩ i ⟨locals, given ++ stack⟩
  | load {kind : ValueKind} {index : UInt16} {v : FrameValue} {locals stack : List FrameValue}
      (inRange : lastSlot index.toNat kind.isWide < m.maxLocals.toNat)
      (found : locals[index.toNat]? = some v) (hasKind : v.kind? = some kind) :
      Rule m ⟨locals, stack⟩ (.load kind index) ⟨locals, v :: stack⟩
  | store {kind : ValueKind} {index : UInt16} {v : FrameValue} {locals stack : List FrameValue}
      (hasKind : v.kind? = some kind)
      (inRange : lastSlot index.toNat v.isWide < m.maxLocals.toNat) :
      Rule m ⟨locals, v :: stack⟩ (.store kind index)
        ⟨Frame.storeLocals locals index.toNat v, stack⟩
  | increment {index : UInt16} {delta : Int16} {locals stack : List FrameValue}
      (inRange : index.toNat < m.maxLocals.toNat) (found : locals[index.toNat]? = some .int) :
      Rule m ⟨locals, stack⟩ (.increment index delta) ⟨locals, stack⟩
  | invoke {kind : InvokeKind} {method : MethodRef} {taken locals stack : List FrameValue}
      (operands : List.Forall₂ (fun t v => (FrameValue.ofType t).isAssignableFrom v)
        (method.operandTypes kind) taken) :
      Rule m ⟨locals, taken ++ stack⟩ (.invoke kind method)
        ⟨locals, (method.type.returns.map FrameValue.ofType).toList ++ stack⟩
  | arrayLength {v element : FrameValue} {kind : ValueKind} {locals stack : List FrameValue}
      (array : v.ArrayOf kind element) :
      Rule m ⟨locals, v :: stack⟩ .arrayLength ⟨locals, .int :: stack⟩
  | arrayLoad {v element : FrameValue} {kind : ValueKind} {locals stack : List FrameValue}
      (array : v.ArrayOf kind element) :
      Rule m ⟨locals, .int :: v :: stack⟩ (.arrayLoad kind) ⟨locals, element :: stack⟩
  | arrayStore {u v element : FrameValue} {kind : ValueKind} {locals stack : List FrameValue}
      (hasKind : u.kind? = some kind) (array : v.ArrayOf kind element) :
      Rule m ⟨locals, u :: .int :: v :: stack⟩ (.arrayStore kind) ⟨locals, stack⟩
  | leaveNothing {f : Frame} (returns : m.type.returns = none) : Rule m f (.leave none) f
  | leave {type : ValueType} {v : FrameValue} {locals stack : List FrameValue}
      (returns : m.type.returns = some type)
      (fits : (FrameValue.ofType type).isAssignableFrom v) :
      Rule m ⟨locals, v :: stack⟩ (.leave (some type.kind)) ⟨locals, stack⟩

namespace Frame

theorem pop_eq_ok {f g : Frame} {v : FrameValue} :
    f.pop = .ok (v, g) ↔ f = ⟨g.locals, v :: g.stack⟩ := by
  obtain ⟨locals, stack⟩ := f
  obtain ⟨locals', stack'⟩ := g
  cases stack <;> simp [pop]
  grind

theorem popSingle_eq_ok {f g : Frame} {v : FrameValue} :
    f.popSingle = .ok (v, g) ↔ f = ⟨g.locals, v :: g.stack⟩ ∧ ¬ v.isWide := by
  simp only [popSingle, Except.bind_eq_ok, Prod.exists, pop_eq_ok]
  constructor
  · rintro ⟨u, h, rfl, hu⟩
    split at hu
    · cases hu
    · rename_i hw
      cases hu
      exact ⟨rfl, hw⟩
  · rintro ⟨rfl, hw⟩
    exact ⟨v, g, rfl, by rw [if_neg hw]; rfl⟩

theorem popKind_eq_ok {f g : Frame} {kind : ValueKind} {v : FrameValue} :
    f.popKind kind = .ok (v, g) ↔ f = ⟨g.locals, v :: g.stack⟩ ∧ v.kind? = some kind := by
  simp only [popKind, Except.bind_eq_ok, Prod.exists, pop_eq_ok]
  constructor
  · rintro ⟨u, h, rfl, hu⟩
    split at hu
    · rename_i hk
      cases hu
      exact ⟨rfl, hk⟩
    · cases hu
  · rintro ⟨rfl, hk⟩
    exact ⟨v, g, rfl, by rw [if_pos hk]; rfl⟩

theorem popSingle_cons {v : FrameValue} (h : ¬ v.isWide) (locals stack : List FrameValue) :
    popSingle ⟨locals, v :: stack⟩ = .ok (v, ⟨locals, stack⟩) :=
  popSingle_eq_ok.2 ⟨rfl, h⟩

theorem popKind_cons {kind : ValueKind} {v : FrameValue} (h : v.kind? = some kind)
    (locals stack : List FrameValue) :
    popKind ⟨locals, v :: stack⟩ kind = .ok (v, ⟨locals, stack⟩) :=
  popKind_eq_ok.2 ⟨rfl, h⟩

theorem popInt_cons (locals stack : List FrameValue) :
    popKind ⟨locals, .int :: stack⟩ .int = .ok (.int, ⟨locals, stack⟩) := rfl

theorem popType_eq_ok {f g : Frame} {type : ValueType} :
    f.popType type = .ok g ↔
      ∃ v, f = ⟨g.locals, v :: g.stack⟩ ∧ (FrameValue.ofType type).isAssignableFrom v := by
  simp only [popType, Except.bind_eq_ok, Prod.exists, pop_eq_ok]
  constructor
  · rintro ⟨u, h, rfl, hu⟩
    split at hu
    · rename_i hk
      cases hu
      exact ⟨u, rfl, hk⟩
    · cases hu
  · rintro ⟨v, rfl, hk⟩
    exact ⟨v, g, rfl, by rw [if_pos hk]; rfl⟩

/-- Operands of the types are taken one after the other, the topmost first. -/
theorem foldlM_popType_eq_ok {f g : Frame} {types : List ValueType} :
    types.foldlM popType f = .ok g ↔
      ∃ taken, f = ⟨g.locals, taken ++ g.stack⟩ ∧
        List.Forall₂ (fun t v => (FrameValue.ofType t).isAssignableFrom v) types taken := by
  induction types generalizing f with
  | nil =>
      simp only [List.foldlM_nil, List.forall₂_nil_left_iff, exists_eq_right, List.nil_append]
      exact ⟨fun h => by cases h; rfl, fun h => by rw [h]; rfl⟩
  | cons t types ih =>
      simp only [List.foldlM_cons, Except.bind_eq_ok, ih, popType_eq_ok]
      constructor
      · rintro ⟨_, ⟨v, rfl, hv⟩, taken, h, htaken⟩
        cases h
        exact ⟨v :: taken, rfl, .cons hv htaken⟩
      · rintro ⟨_, rfl, _ | ⟨hv, htaken⟩⟩
        exact ⟨_, ⟨_, rfl, hv⟩, _, rfl, htaken⟩

theorem push_eq_ok {f g : Frame} {maxStack : Nat} {v : FrameValue} :
    f.push maxStack v = .ok g ↔ g = ⟨f.locals, v :: f.stack⟩ ∧ g.stackSlots ≤ maxStack := by
  simp only [push]
  split
  · rename_i h
    refine ⟨fun h => (by cases h), ?_⟩
    rintro ⟨rfl, h'⟩
    exact absurd h (Nat.not_lt.2 h')
  · rename_i h
    constructor
    · intro h'
      cases h'
      exact ⟨rfl, Nat.not_lt.1 h⟩
    · rintro ⟨rfl, -⟩
      rfl

theorem popArray_eq_ok {f g : Frame} {kind : ValueKind} {type : Option ValueType} :
    f.popArray (some kind) = .ok (type, g) ↔
      (type = none ∧ f = ⟨g.locals, .null :: g.stack⟩) ∨
        ∃ element, type = some element ∧ element.kind = kind ∧
          f = ⟨g.locals, .reference (.array element) :: g.stack⟩ := by
  simp only [popArray, Except.bind_eq_ok, Prod.exists, pop_eq_ok]
  constructor
  · rintro ⟨v, h, rfl, hv⟩
    split at hv
    · cases hv
      exact .inl ⟨rfl, rfl⟩
    · split at hv
      · rename_i element hk
        cases hv
        exact .inr ⟨element, rfl, by simpa [eq_comm] using hk, rfl⟩
      · cases hv
    · cases hv
  · rintro (⟨rfl, rfl⟩ | ⟨element, rfl, rfl, rfl⟩)
    · exact ⟨_, _, rfl, rfl⟩
    · exact ⟨_, _, rfl, by simp; rfl⟩

/-- An array is taken whatever is known of its elements. -/
theorem popArray_of_arrayOf {kind : ValueKind} {v element : FrameValue} (h : v.ArrayOf kind element)
    (locals stack : List FrameValue) :
    ∃ type, popArray ⟨locals, v :: stack⟩ (some kind) = .ok (type, ⟨locals, stack⟩) ∧
      element = match (type : Option ValueType) with
        | some type => .ofType type
        | none => if kind = .reference then .null else .ofKind kind := by
  cases h with
  | null => exact ⟨none, popArray_eq_ok.2 (.inl ⟨rfl, rfl⟩), rfl⟩
  | array type => exact ⟨some type, popArray_eq_ok.2 (.inr ⟨type, rfl, rfl, rfl⟩), rfl⟩

theorem popArray_none_eq_ok {f g : Frame} :
    (∃ type, f.popArray none = .ok (type, g)) ↔
      ∃ v kind element, v.ArrayOf kind element ∧ f = ⟨g.locals, v :: g.stack⟩ := by
  simp only [popArray, Except.bind_eq_ok, Prod.exists, pop_eq_ok]
  constructor
  · rintro ⟨type, v, h, rfl, hv⟩
    split at hv
    · cases hv
      exact ⟨_, _, _, .null .int, rfl⟩
    · simp only [Option.all_none, if_true] at hv
      cases hv
      exact ⟨_, _, _, .array _, rfl⟩
    · cases hv
  · rintro ⟨_, _, _, h, rfl⟩
    cases h
    · exact ⟨_, _, _, rfl, rfl⟩
    · exact ⟨_, _, _, rfl, rfl⟩

theorem checkLocal_eq_ok {maxLocals index : Nat} {wide : Bool} {u : Unit} :
    checkLocal maxLocals index wide = .ok u ↔ lastSlot index wide < maxLocals := by
  simp only [checkLocal, lastSlot]
  split <;> split <;> simp_all

theorem load_eq_ok {f : Frame} {maxLocals index : Nat} {kind : ValueKind} {v : FrameValue} :
    f.load maxLocals kind index = .ok v ↔
      lastSlot index kind.isWide < maxLocals ∧ f.locals[index]? = some v ∧ v.kind? = some kind := by
  simp only [load, Except.bind_eq_ok, checkLocal_eq_ok, List.getD_eq_getElem?_getD]
  constructor
  · rintro ⟨-, hr, hv⟩
    split at hv
    · rename_i hk
      cases hv
      refine ⟨hr, ?_, hk⟩
      cases h : f.locals[index]? with
      | none => simp [h, FrameValue.kind?] at hk
      | some v => rfl
    · cases hv
  · rintro ⟨hr, hv, hk⟩
    exact ⟨(), hr, by simp [hv, hk]; rfl⟩

theorem store_eq_ok {f g : Frame} {maxLocals index : Nat} {v : FrameValue} :
    f.store maxLocals index v = .ok g ↔
      lastSlot index v.isWide < maxLocals ∧ g = ⟨storeLocals f.locals index v, f.stack⟩ := by
  simp only [store, Except.bind_eq_ok, checkLocal_eq_ok]
  constructor
  · rintro ⟨-, hr, h⟩
    cases h
    exact ⟨hr, rfl⟩
  · rintro ⟨hr, rfl⟩
    exact ⟨(), hr, rfl⟩

theorem peek_eq_ok {f : Frame} {v : FrameValue} :
    f.peek = .ok v ↔ ∃ stack, f = ⟨f.locals, v :: stack⟩ := by
  obtain ⟨locals, stack⟩ := f
  cases stack <;> simp [peek]

theorem pushAll_eq_ok {f g : Frame} {maxStack : Nat} {values : List FrameValue} :
    f.pushAll maxStack values = .ok g →
      g = ⟨f.locals, values.reverse ++ f.stack⟩ := by
  simp only [pushAll]
  induction values generalizing f with
  | nil =>
      intro h
      cases h
      rfl
  | cons v values ih =>
      rw [List.foldlM_cons, Except.bind_eq_ok]
      rintro ⟨f', hf', h⟩
      obtain ⟨rfl, -⟩ := push_eq_ok.1 hf'
      simpa using ih h

/-- A push fails only for want of room. -/
theorem push_cases (f : Frame) (maxStack : Nat) (v : FrameValue) :
    f.push maxStack v = .ok ⟨f.locals, v :: f.stack⟩ ∧
        stackSlots ⟨f.locals, v :: f.stack⟩ ≤ maxStack ∨
      f.push maxStack v = .error (.stackOverflow maxStack) ∧
        maxStack < stackSlots ⟨f.locals, v :: f.stack⟩ := by
  simp only [push]
  split
  · rename_i h
    exact .inr ⟨rfl, h⟩
  · rename_i h
    exact .inl ⟨rfl, Nat.not_lt.1 h⟩

@[simp]
theorem stackSlots_nil (locals : List FrameValue) : stackSlots ⟨locals, []⟩ = 0 := rfl

@[simp]
theorem stackSlots_cons (locals : List FrameValue) (v : FrameValue) (stack : List FrameValue) :
    stackSlots ⟨locals, v :: stack⟩ = v.slots + stackSlots ⟨locals, stack⟩ := rfl

theorem stackSlots_append (locals above stack : List FrameValue) :
    stackSlots ⟨locals, above ++ stack⟩ =
      stackSlots ⟨locals, above⟩ + stackSlots ⟨locals, stack⟩ := by
  induction above with
  | nil => simp
  | cons v above ih => simp [ih, Nat.add_assoc]

/-- Taking values off leaves no more slots taken. -/
theorem stackSlots_le_of_suffix {f g : Frame} (h : g.stack <:+ f.stack) :
    g.stackSlots ≤ f.stackSlots := by
  obtain ⟨above, habove⟩ := h
  have happend := stackSlots_append f.locals above g.stack
  rw [habove] at happend
  exact happend ▸ Nat.le_add_left _ _

theorem pushAll_cases (f : Frame) (maxStack : Nat) (v : FrameValue) (values : List FrameValue) :
    f.pushAll maxStack (v :: values) = .ok ⟨f.locals, (v :: values).reverse ++ f.stack⟩ ∧
        stackSlots ⟨f.locals, (v :: values).reverse ++ f.stack⟩ ≤ maxStack ∨
      f.pushAll maxStack (v :: values) = .error (.stackOverflow maxStack) ∧
        maxStack < stackSlots ⟨f.locals, (v :: values).reverse ++ f.stack⟩ := by
  simp only [pushAll]
  induction values generalizing f v with
  | nil =>
      rw [List.foldlM_cons]
      rcases push_cases f maxStack v with ⟨h, hroom⟩ | ⟨h, hroom⟩
      · exact .inl ⟨by rw [h]; rfl, hroom⟩
      · exact .inr ⟨by rw [h]; rfl, hroom⟩
  | cons u values ih =>
      rw [List.foldlM_cons]
      rcases push_cases f maxStack v with ⟨h, -⟩ | ⟨h, hroom⟩
      · rw [h, Except.ok_bind]
        simpa using ih ⟨f.locals, v :: f.stack⟩ u
      · rw [h]
        refine .inr ⟨rfl, ?_⟩
        simp only [List.reverse_cons, List.append_assoc, stackSlots_append] at hroom ⊢
        simp only [stackSlots_cons] at hroom
        simp only [stackSlots_cons, stackSlots_nil]
        omega

end Frame

namespace FrameValue

/-- The numbers of a kind are all known in the same way. -/
theorem eq_ofKind_of_kind {v : FrameValue} {kind : NumericKind}
    (h : v.kind? = some kind.toValueKind) : v = .ofKind kind.toValueKind := by
  cases v <;> cases kind <;> simp_all [kind?, NumericKind.toValueKind, ofKind]

end FrameValue

namespace Method

variable {m : Method} {f g : Frame} {i : Instruction}

theorem shuffle_of_transferShuffle (hi : i ∈ [.pop, .pop2, .dup, .dupX1, .dupX2, .dup2, .swap])
    (h : m.transferShuffle f i = .ok g) :
    ∃ taken given stack, Shuffle FrameValue.isWide i taken given ∧
      f = ⟨g.locals, taken ++ stack⟩ ∧ g = ⟨g.locals, given ++ stack⟩ := by
  simp only [List.mem_cons, List.not_mem_nil, or_false] at hi
  obtain rfl | rfl | rfl | rfl | rfl | rfl | rfl := hi
  all_goals
    simp only [transferShuffle, Except.bind_eq_ok, Prod.exists, Frame.popSingle_eq_ok] at h
  · obtain ⟨v, f', ⟨rfl, hw⟩, h⟩ := h
    cases h
    exact ⟨_, _, _, .pop hw, rfl, rfl⟩
  · obtain ⟨v, hv, h⟩ := h
    obtain ⟨stack, hf⟩ := Frame.peek_eq_ok.1 hv
    split at h
    · rename_i hw
      simp only [Except.bind_eq_ok, Prod.exists, Frame.pop_eq_ok] at h
      obtain ⟨u, f', rfl, h⟩ := h
      cases h
      cases hf
      exact ⟨_, _, _, .pop2Wide hw, rfl, rfl⟩
    · simp only [Except.bind_eq_ok, Prod.exists, Frame.popSingle_eq_ok] at h
      obtain ⟨a, f', ⟨rfl, ha⟩, b, f'', ⟨h', hb⟩, h⟩ := h
      cases h
      cases h'
      exact ⟨_, _, _, .pop2 ha hb, rfl, rfl⟩
  · obtain ⟨a, f', ⟨rfl, ha⟩, h⟩ := h
    cases Frame.pushAll_eq_ok h
    exact ⟨_, _, _, .dup ha, rfl, rfl⟩
  · obtain ⟨a, f', ⟨rfl, ha⟩, b, f'', ⟨h', hb⟩, h⟩ := h
    cases Frame.pushAll_eq_ok h
    cases h'
    exact ⟨_, _, _, .dupX1 ha hb, rfl, rfl⟩
  · obtain ⟨a, f', ⟨rfl, ha⟩, v, hv, h⟩ := h
    obtain ⟨stack, hf⟩ := Frame.peek_eq_ok.1 hv
    split at h
    · rename_i hw
      simp only [Except.bind_eq_ok, Prod.exists, Frame.pop_eq_ok] at h
      obtain ⟨b, f'', rfl, h⟩ := h
      cases Frame.pushAll_eq_ok h
      cases hf
      exact ⟨_, _, _, .dupX2Wide ha hw, rfl, rfl⟩
    · simp only [Except.bind_eq_ok, Prod.exists, Frame.popSingle_eq_ok] at h
      obtain ⟨b, f₂, ⟨rfl, hb⟩, c, f₃, ⟨h', hc⟩, h⟩ := h
      cases Frame.pushAll_eq_ok h
      cases h'
      exact ⟨_, _, _, .dupX2 ha hb hc, rfl, rfl⟩
  · obtain ⟨v, hv, h⟩ := h
    obtain ⟨stack, hf⟩ := Frame.peek_eq_ok.1 hv
    split at h
    · rename_i hw
      simp only [Except.bind_eq_ok, Prod.exists, Frame.pop_eq_ok] at h
      obtain ⟨a, f', rfl, h⟩ := h
      cases Frame.pushAll_eq_ok h
      cases hf
      exact ⟨_, _, _, .dup2Wide hw, rfl, rfl⟩
    · simp only [Except.bind_eq_ok, Prod.exists, Frame.popSingle_eq_ok] at h
      obtain ⟨a, f', ⟨rfl, ha⟩, b, f'', ⟨h', hb⟩, h⟩ := h
      cases Frame.pushAll_eq_ok h
      cases h'
      exact ⟨_, _, _, .dup2 ha hb, rfl, rfl⟩
  · obtain ⟨a, f', ⟨rfl, ha⟩, b, f'', ⟨h', hb⟩, h⟩ := h
    cases Frame.pushAll_eq_ok h
    cases h'
    exact ⟨_, _, _, .swap ha hb, rfl, rfl⟩

/-- An instruction without operands. -/
theorem Rule.noOperands {given : List FrameValue} (h : i.fixedEffect? = some ([], given))
    (hg : g = ⟨f.locals, given ++ f.stack⟩) : m.Rule f i g :=
  hg ▸ @Rule.fixed m i [] given [] f.locals f.stack h .nil

/-- An instruction with one operand. -/
theorem Rule.oneOperand {kind : ValueKind} {v : FrameValue} {given locals stack : List FrameValue}
    (h : i.fixedEffect? = some ([kind], given)) (hv : v.kind? = some kind)
    (hg : g = ⟨locals, given ++ stack⟩) : m.Rule ⟨locals, v :: stack⟩ i g :=
  hg ▸ @Rule.fixed m i [kind] given [v] locals stack h (.cons hv .nil)

/-- An instruction with two operands. -/
theorem Rule.twoOperands {k l : ValueKind} {u v : FrameValue} {given locals stack : List FrameValue}
    (h : i.fixedEffect? = some ([k, l], given)) (hu : u.kind? = some k) (hv : v.kind? = some l)
    (hg : g = ⟨locals, given ++ stack⟩) : m.Rule ⟨locals, u :: v :: stack⟩ i g :=
  hg ▸ @Rule.fixed m i [k, l] given [u, v] locals stack h (.cons hu (.cons hv .nil))

/-- An invocation takes its operands, and leaves what it returns. -/
theorem transfer_invoke (f : Frame) (kind : InvokeKind) (method : MethodRef) :
    m.transfer f (.invoke kind method) =
      ((method.operandTypes kind).foldlM Frame.popType f >>= fun f' =>
        match method.type.returns with
        | some type => f'.push m.maxStack.toNat (.ofType type)
        | none => pure f') := by
  simp only [transfer, Frame.popTypes, MethodRef.operandTypes, List.foldlM_append, bind_assoc]
  congr 1
  funext f'
  cases kind with
  | static => rfl
  | virtual =>
      have receiver : List.foldlM Frame.popType f' [.object method.owner] =
          f'.popType (.object method.owner) := bind_pure _
      exact congrArg (· >>= _) receiver.symm

/-- What an invocation finds follows its rule. -/
theorem rule_of_transfer_invoke {kind : InvokeKind} {method : MethodRef}
    (h : m.transfer f (.invoke kind method) = .ok g) : m.Rule f (.invoke kind method) g := by
  rw [transfer_invoke, Except.bind_eq_ok] at h
  obtain ⟨f', hf', h⟩ := h
  obtain ⟨taken, rfl, htaken⟩ := Frame.foldlM_popType_eq_ok.1 hf'
  have hg : g = ⟨f'.locals, (method.type.returns.map FrameValue.ofType).toList ++ f'.stack⟩ := by
    split at h <;> rename_i hreturns <;> rw [hreturns]
    · exact (Frame.push_eq_ok.1 h).1
    · cases h
      rfl
  exact hg ▸ .invoke htaken

/-- What the analysis finds where a method is left follows the rule. -/
theorem rule_of_transferLeave {kind : Option ValueKind} (h : m.transferLeave f kind = .ok g) :
    m.Rule f (.leave kind) g := by
  simp only [transferLeave] at h
  split at h
  · rename_i hr
    cases h
    exact .leaveNothing hr
  · rename_i type kind hr
    split at h
    · rename_i hk
      subst hk
      obtain ⟨v, rfl, hv⟩ := Frame.popType_eq_ok.1 h
      exact .leave hr hv
    · cases h
  · cases h

/-- What the analysis finds for an instruction follows its rule. -/
theorem rule_of_transfer (h : m.transfer f i = .ok g) : m.Rule f i g := by
  cases i
  case invoke => exact rule_of_transfer_invoke h
  all_goals simp only [transfer, Except.bind_eq_ok, Prod.exists, Frame.popKind_eq_ok,
    Frame.load_eq_ok, Frame.store_eq_ok] at h
  case label | nop | goto =>
    cases h
    exact Rule.noOperands rfl rfl
  case const c =>
    obtain ⟨rfl, -⟩ := Frame.push_eq_ok.1 h
    exact Rule.noOperands rfl rfl
  case load kind index =>
    obtain ⟨v, ⟨hr, hv, hk⟩, h⟩ := h
    obtain ⟨rfl, -⟩ := Frame.push_eq_ok.1 h
    exact .load hr hv hk
  case store kind index =>
    obtain ⟨v, f', ⟨rfl, hk⟩, hr, rfl⟩ := h
    exact .store hk hr
  case increment index delta =>
    obtain ⟨v, ⟨hr, hv, hk⟩, h⟩ := h
    cases h
    obtain rfl : v = .int := by cases v <;> simp_all [FrameValue.kind?]
    exact .increment hr hv
  case pop | pop2 | dup | dupX1 | dupX2 | dup2 | swap =>
    obtain ⟨taken, given, stack, hs, rfl, hg⟩ := shuffle_of_transferShuffle (by simp) h
    rw [hg]
    exact .shuffle hs
  case binary op kind =>
    split at h
    · cases h
    · rename_i hop
      simp only [Except.bind_eq_ok, Prod.exists, Frame.popKind_eq_ok] at h
      obtain ⟨u, f', ⟨rfl, hu⟩, v, f'', ⟨h', hv⟩, h⟩ := h
      obtain ⟨rfl, -⟩ := Frame.push_eq_ok.1 h
      cases h'
      obtain rfl := FrameValue.eq_ofKind_of_kind hv
      exact Rule.twoOperands (by simp [Instruction.fixedEffect?, hop]; rfl) hu hv rfl
  case negate kind =>
    obtain ⟨v, f', ⟨rfl, hv⟩, h⟩ := h
    obtain ⟨rfl, -⟩ := Frame.push_eq_ok.1 h
    obtain rfl := FrameValue.eq_ofKind_of_kind hv
    exact Rule.oneOperand rfl hv rfl
  case convert | newArray =>
    obtain ⟨v, f', ⟨rfl, hv⟩, h⟩ := h
    obtain ⟨rfl, -⟩ := Frame.push_eq_ok.1 h
    exact Rule.oneOperand rfl hv rfl
  case compare =>
    obtain ⟨u, f', ⟨rfl, hu⟩, v, f'', ⟨h', hv⟩, h⟩ := h
    obtain ⟨rfl, -⟩ := Frame.push_eq_ok.1 h
    cases h'
    exact Rule.twoOperands rfl hu hv rfl
  case ifZero | tableSwitch | lookupSwitch | ifNull | throw | monitorEnter | monitorExit =>
    obtain ⟨v, f', ⟨rfl, hv⟩, h⟩ := h
    cases h
    exact Rule.oneOperand rfl hv rfl
  case ifCompare | ifSame =>
    obtain ⟨u, f', ⟨rfl, hu⟩, v, f'', ⟨h', hv⟩, h⟩ := h
    cases h
    cases h'
    exact Rule.twoOperands rfl hu hv rfl
  case jumpSubroutine | returnSubroutine => cases h
  case arrayLength =>
    obtain ⟨type, f', h', h⟩ := h
    obtain ⟨v, kind, element, ha, rfl⟩ := Frame.popArray_none_eq_ok.1 ⟨type, h'⟩
    obtain ⟨rfl, -⟩ := Frame.push_eq_ok.1 h
    exact .arrayLength ha
  case arrayLoad kind =>
    obtain ⟨u, f', ⟨rfl, hu⟩, type, f'', h', h⟩ := h
    obtain rfl : u = .int := by cases u <;> simp_all [FrameValue.kind?]
    rcases Frame.popArray_eq_ok.1 h' with ⟨rfl, rfl⟩ | ⟨element, rfl, rfl, rfl⟩
    · obtain ⟨rfl, -⟩ := Frame.push_eq_ok.1 h
      exact .arrayLoad (.null kind)
    · obtain ⟨rfl, -⟩ := Frame.push_eq_ok.1 h
      exact .arrayLoad (.array element)
  case arrayStore kind =>
    obtain ⟨u, f', ⟨rfl, hu⟩, v, f'', ⟨h', hv⟩, type, f₃, h₃, h⟩ := h
    cases h
    obtain rfl : v = .int := by cases v <;> simp_all [FrameValue.kind?]
    rcases Frame.popArray_eq_ok.1 h₃ with ⟨rfl, rfl⟩ | ⟨element, rfl, rfl, rfl⟩
    · obtain ⟨l, s⟩ := f'
      cases h'
      exact .arrayStore hu (.null kind)
    · obtain ⟨l, s⟩ := f'
      cases h'
      exact .arrayStore hu (.array element)
  case checkCast type =>
    split at h
    · cases h
    · rename_i ht
      simp only [Except.bind_eq_ok, Prod.exists, Frame.popKind_eq_ok] at h
      obtain ⟨v, f', ⟨rfl, hv⟩, h⟩ := h
      obtain ⟨rfl, -⟩ := Frame.push_eq_ok.1 h
      exact Rule.oneOperand (by simp at ht; simp [Instruction.fixedEffect?, ht]; rfl) hv rfl
  case instanceOf type =>
    split at h
    · cases h
    · rename_i ht
      simp only [Except.bind_eq_ok, Prod.exists, Frame.popKind_eq_ok] at h
      obtain ⟨v, f', ⟨rfl, hv⟩, h⟩ := h
      obtain ⟨rfl, -⟩ := Frame.push_eq_ok.1 h
      exact Rule.oneOperand (by simp at ht; simp [Instruction.fixedEffect?, ht]; rfl) hv rfl
  case leave => exact rule_of_transferLeave h

/-- The analysis finds the frame for an instruction, unless it has no room for it.  It doesn't look
for room where operands are only taken. -/
def Transfers (m : Method) (f : Frame) (i : Instruction) (g : Frame) : Prop :=
  m.transfer f i = .ok g ∧ (g.stackSlots ≤ m.maxStack.toNat ∨ g.stack <:+ f.stack) ∨
    m.transfer f i = .error (.stackOverflow m.maxStack.toNat) ∧
      m.maxStack.toNat < g.stackSlots

/-- An instruction whose last step is to put a value on the operand stack. -/
theorem transfers_push (f' : Frame) {v : FrameValue}
    (h : m.transfer f i = f'.push m.maxStack.toNat v) :
    m.Transfers f i ⟨f'.locals, v :: f'.stack⟩ := by
  simp only [Transfers, h]
  exact (Frame.push_cases ..).imp_left (And.imp_right .inl)

/-- An instruction that only takes operands. -/
theorem transfers_take (h : m.transfer f i = .ok g) (hstack : g.stack <:+ f.stack) :
    m.Transfers f i g := .inl ⟨h, .inr hstack⟩

theorem transfers_fixed {kinds : List ValueKind} {given taken locals stack : List FrameValue}
    (effect : i.fixedEffect? = some (kinds, given))
    (operands : List.Forall₂ (fun k v => v.kind? = some k) kinds taken) :
    m.Transfers ⟨locals, taken ++ stack⟩ i ⟨locals, given ++ stack⟩ := by
  cases i <;> simp only [Instruction.fixedEffect?] at effect
  case binary op kind =>
    split at effect
    · cases effect
    · rename_i hop
      cases effect
      obtain _ | ⟨hu, _ | ⟨hv, _ | _⟩⟩ := operands
      obtain rfl := FrameValue.eq_ofKind_of_kind hv
      refine transfers_push ⟨locals, stack⟩ ?_
      simp only [transfer, hop, if_false, Frame.popKind_cons hu, Frame.popKind_cons hv,
        Except.ok_bind, List.cons_append, List.nil_append]
  case checkCast | instanceOf =>
    split at effect
    · rename_i ht
      cases effect
      obtain _ | ⟨hv, _ | _⟩ := operands
      refine transfers_push ⟨locals, stack⟩ ?_
      simp only [transfer, ht, not_true, if_false, Frame.popKind_cons hv,
        Except.ok_bind, List.cons_append, List.nil_append]
    · cases effect
  case label | nop | goto =>
    cases effect
    cases operands
    exact transfers_take rfl (List.suffix_refl _)
  case const =>
    cases effect
    cases operands
    exact transfers_push ⟨locals, stack⟩ rfl
  case negate =>
    cases effect
    obtain _ | ⟨hv, _ | _⟩ := operands
    obtain rfl := FrameValue.eq_ofKind_of_kind hv
    refine transfers_push ⟨locals, stack⟩ ?_
    simp only [transfer, Frame.popKind_cons hv, Except.ok_bind, List.cons_append, List.nil_append]
  case convert | newArray =>
    cases effect
    obtain _ | ⟨hv, _ | _⟩ := operands
    refine transfers_push ⟨locals, stack⟩ ?_
    simp only [transfer, Frame.popKind_cons hv, Except.ok_bind, List.cons_append, List.nil_append]
  case compare =>
    cases effect
    obtain _ | ⟨hu, _ | ⟨hv, _ | _⟩⟩ := operands
    refine transfers_push ⟨locals, stack⟩ ?_
    simp only [transfer, Frame.popKind_cons hu, Frame.popKind_cons hv, Except.ok_bind,
      List.cons_append, List.nil_append]
  case ifZero | tableSwitch | lookupSwitch | ifNull | throw | monitorEnter | monitorExit =>
    cases effect
    obtain _ | ⟨hv, _ | _⟩ := operands
    refine transfers_take ?_ ⟨[_], rfl⟩
    simp only [transfer, Frame.popKind_cons hv, Except.ok_bind, List.cons_append, List.nil_append]
    rfl
  case ifCompare | ifSame =>
    cases effect
    obtain _ | ⟨hu, _ | ⟨hv, _ | _⟩⟩ := operands
    refine transfers_take ?_ ⟨[_, _], rfl⟩
    simp only [transfer, Frame.popKind_cons hu, Frame.popKind_cons hv, Except.ok_bind,
      List.cons_append, List.nil_append]
    rfl
  all_goals cases effect

theorem transfers_shuffle {taken given locals stack : List FrameValue}
    (moves : Shuffle FrameValue.isWide i taken given) :
    m.Transfers ⟨locals, taken ++ stack⟩ i ⟨locals, given ++ stack⟩ := by
  cases moves <;>
    simp only [Transfers, transfer, transferShuffle, Frame.peek, Frame.pop, Except.ok_bind,
      Frame.popSingle_cons, List.cons_append, List.nil_append, if_true, if_false,
      Bool.false_eq_true, not_false_eq_true, *]
  case pop | pop2Wide => exact .inl ⟨rfl, .inr ⟨[_], rfl⟩⟩
  case pop2 => exact .inl ⟨rfl, .inr ⟨[_, _], rfl⟩⟩
  all_goals exact (Frame.pushAll_cases ..).imp_left (And.imp_right .inl)

theorem transfers_invoke {kind : InvokeKind} {method : MethodRef}
    {taken locals stack : List FrameValue}
    (operands : List.Forall₂ (fun t v => (FrameValue.ofType t).isAssignableFrom v)
      (method.operandTypes kind) taken) :
    m.Transfers ⟨locals, taken ++ stack⟩ (.invoke kind method)
      ⟨locals, (method.type.returns.map FrameValue.ofType).toList ++ stack⟩ := by
  have ho : (method.operandTypes kind).foldlM Frame.popType ⟨locals, taken ++ stack⟩ =
      .ok ⟨locals, stack⟩ := Frame.foldlM_popType_eq_ok.2 ⟨taken, rfl, operands⟩
  cases hreturns : method.type.returns with
  | none =>
      refine transfers_take ?_ ⟨taken, rfl⟩
      simp only [transfer_invoke, ho, Except.ok_bind, hreturns]
      rfl
  | some type =>
      refine transfers_push ⟨locals, stack⟩ ?_
      simp only [transfer_invoke, ho, Except.ok_bind, hreturns]

/-- If a rule relates two frames, the analysis finds the second one, or it has no room. -/
theorem transfer_of_rule (h : m.Rule f i g) : m.Transfers f i g := by
  cases h with
  | fixed effect operands => exact transfers_fixed effect operands
  | shuffle moves => exact transfers_shuffle moves
  | @load kind index v locals stack inRange found hasKind =>
      have hl : Frame.load ⟨locals, stack⟩ m.maxLocals.toNat kind index.toNat = .ok v :=
        Frame.load_eq_ok.2 ⟨inRange, found, hasKind⟩
      refine transfers_push ⟨locals, stack⟩ ?_
      simp only [transfer, hl, Except.ok_bind]
  | @store kind index v locals stack hasKind inRange =>
      have hs : Frame.store ⟨locals, stack⟩ m.maxLocals.toNat index.toNat v =
          .ok ⟨Frame.storeLocals locals index.toNat v, stack⟩ :=
        Frame.store_eq_ok.2 ⟨inRange, rfl⟩
      refine transfers_take ?_ ⟨[v], rfl⟩
      simp only [transfer, Frame.popKind_cons hasKind, Except.ok_bind, hs]
  | @increment index delta locals stack inRange found =>
      have hl : Frame.load ⟨locals, stack⟩ m.maxLocals.toNat .int index.toNat = .ok .int :=
        Frame.load_eq_ok.2 ⟨inRange, found, rfl⟩
      refine transfers_take ?_ (List.suffix_refl _)
      simp only [transfer, hl, Except.ok_bind]
      rfl
  | invoke operands => exact transfers_invoke operands
  | @arrayLength v element kind locals stack array =>
      refine transfers_push ⟨locals, stack⟩ ?_
      cases array <;> rfl
  | @arrayLoad v element kind locals stack array =>
      obtain ⟨type, hp, rfl⟩ := Frame.popArray_of_arrayOf array locals stack
      refine transfers_push ⟨locals, stack⟩ ?_
      simp only [transfer, Frame.popInt_cons, Except.ok_bind, hp]
      cases type <;> rfl
  | @arrayStore u v element kind locals stack hasKind array =>
      obtain ⟨type, hp, -⟩ := Frame.popArray_of_arrayOf array locals stack
      refine transfers_take ?_ ⟨[_, _, _], rfl⟩
      simp only [transfer, Frame.popKind_cons hasKind, Frame.popInt_cons, Except.ok_bind, hp]
      rfl
  | leaveNothing returns =>
      refine transfers_take ?_ (List.suffix_refl _)
      simp [transfer, transferLeave, returns]
  | leave returns fits =>
      refine transfers_take ?_ ⟨[_], rfl⟩
      simp only [transfer, transferLeave, returns, if_true]
      exact Frame.popType_eq_ok.2 ⟨_, rfl, fits⟩

theorem transfer_eq_of_rule (h : m.Rule f i g) (room : g.stackSlots ≤ m.maxStack.toNat) :
    m.transfer f i = .ok g := by
  rcases transfer_of_rule h with h | ⟨-, hroom⟩
  · exact h.1
  · omega

/-- The operand stack always has room for what the analysis finds. -/
theorem room_of_transfer (h : m.transfer f i = .ok g) (room : f.stackSlots ≤ m.maxStack.toNat) :
    g.stackSlots ≤ m.maxStack.toNat := by
  rcases transfer_of_rule (rule_of_transfer h) with ⟨-, hg | ⟨taken, hg⟩⟩ | ⟨he, -⟩
  · exact hg
  · exact Nat.le_trans (Frame.stackSlots_le_of_suffix ⟨taken, hg⟩) room
  · rw [h] at he
    cases he

end Method

end Resumable
