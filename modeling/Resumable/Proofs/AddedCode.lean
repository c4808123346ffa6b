import Resumable.Machine.Library
import Resumable.Proofs.Weave

/-!
# What the code of resumable methods calls

The code that's added to a method calls methods of the library only.  Most of it doesn't even touch
the capability: it saves and restores frames, or looks at the mode.
-/

namespace Resumable

/-- True if all methods that the code invokes have the property. -/
def CallsOnly (P : MethodRef → Prop) (code : List Instruction) : Prop :=
  ∀ i ∈ code, ∀ kind method, i.invoked? = some (kind, method) → P method

/-- An instruction of code that stands somewhere. -/
theorem Body.HasAt.get? {b : Body} {p k : Nat} {code : List Instruction} (h : b.HasAt p code)
    (hp : p ≤ k) (hk : k < p + code.length) : ∃ i ∈ code, b.get? k = some i := by
  obtain ⟨before, after, hb, rfl⟩ := h
  have hlt : k - before.length < code.length := by omega
  refine ⟨code[k - before.length], List.getElem_mem hlt, ?_⟩
  simp only [Body.get?, hb, List.append_assoc]
  rw [List.getElem?_append_right hp, List.getElem?_append_left hlt, List.getElem?_eq_getElem hlt]

namespace CallsOnly

variable {P : MethodRef → Prop} {code rest : List Instruction} {i : Instruction}

@[simp] theorem nil : CallsOnly P [] := fun _ h => absurd h List.not_mem_nil

@[simp] theorem cons_iff : CallsOnly P (i :: code) ↔
    (∀ kind method, i.invoked? = some (kind, method) → P method) ∧ CallsOnly P code :=
  List.forall_mem_cons

@[simp] theorem append_iff : CallsOnly P (code ++ rest) ↔ CallsOnly P code ∧ CallsOnly P rest :=
  List.forall_mem_append

theorem flatMap {α : Type} {l : List α} {f : α → List Instruction}
    (h : ∀ a ∈ l, CallsOnly P (f a)) : CallsOnly P (l.flatMap f) := by
  intro i hi
  obtain ⟨a, ha, hi⟩ := List.mem_flatMap.1 hi
  exact h a ha i hi

/-- The methods that code in some place calls. -/
theorem get? {b : Body} {p k : Nat} (h : CallsOnly P code) (hat : b.HasAt p code) (hp : p ≤ k)
    (hk : k < p + code.length) {kind : InvokeKind} {method : MethodRef}
    (hi : b.get? k = some (.invoke kind method)) : P method := by
  obtain ⟨i, hmem, hi'⟩ := hat.get? hp hk
  obtain rfl := Option.some.inj (hi.symm.trans hi')
  exact h _ hmem kind method rfl

end CallsOnly

namespace Snapshot

variable {P : MethodRef → Prop} (t : SlotTable)

theorem callsOnly_boxTop (h : ∀ k : NumericKind, P k.box) (kind : ValueKind) :
    CallsOnly P (boxTop kind) := by
  simp only [boxTop]
  split <;> simp [Instruction.invoked?, h]

theorem callsOnly_unboxTop (h : ∀ k : NumericKind, P k.unbox) (v : FrameValue) :
    CallsOnly P (unboxTop v) := by
  simp only [unboxTop]
  split
  · simp [Instruction.invoked?]
  · split <;> simp [Instruction.invoked?, h]

theorem callsOnly_loadElement (h : ∀ k : NumericKind, P k.unbox) (array : UInt16) (index : Nat)
    (v : FrameValue) : CallsOnly P (loadElement array index v) := by
  simp only [loadElement]
  split
  · simp [Instruction.invoked?]
  · simp [loadReference, pushInt, Instruction.invoked?, callsOnly_unboxTop h]

theorem callsOnly_saveStack (h : ∀ k : NumericKind, P k.box) (stack : List FrameValue) :
    CallsOnly P (saveStack t stack) := by
  have hvalues : CallsOnly P (saveValues t stack) := by
    induction stack with
    | nil => exact .nil
    | cons v below ih =>
        refine CallsOnly.append_iff.2 ⟨?_, ih⟩
        simp only [saveTop]
        split
        · simp [Instruction.invoked?]
        · simp [loadReference, storeReference, pushInt, Instruction.invoked?, callsOnly_boxTop h]
  simp [saveStack, newArray, pushInt, storeReference, Instruction.invoked?, hvalues]

theorem callsOnly_loadStack (h : ∀ k : NumericKind, P k.unbox) (stack : List FrameValue) :
    CallsOnly P (loadStack t stack) := by
  induction stack with
  | nil => exact .nil
  | cons v below ih => exact CallsOnly.append_iff.2 ⟨ih, callsOnly_loadElement h _ _ v⟩

theorem callsOnly_saveLocals (h : ∀ k : NumericKind, P k.box) (locals : List FrameValue) :
    CallsOnly P (saveLocals t locals) := by
  refine CallsOnly.append_iff.2 ⟨?_, .flatMap fun (v, index) _ => ?_⟩
  · simp [newArray, pushInt, storeReference, Instruction.invoked?]
  · simp only [saveLocal]
    split
    · exact .nil
    · split
      · exact .nil
      · simp [loadReference, pushInt, Instruction.invoked?, callsOnly_boxTop h]

theorem callsOnly_loadLocals (h : ∀ k : NumericKind, P k.unbox) (locals : List FrameValue) :
    CallsOnly P (loadLocals t locals) := by
  refine .flatMap fun (v, index) _ => ?_
  simp only [loadLocal]
  split
  · exact .nil
  · simp [Instruction.invoked?, callsOnly_loadElement h]

theorem callsOnly_leaveEarly (returns : Option ValueType) : CallsOnly P (leaveEarly returns) := by
  cases returns <;> simp [leaveEarly, Instruction.invoked?]

end Snapshot

namespace MethodRef

/-- True if the method is one of the library. -/
def InLibrary (method : MethodRef) : Prop := (Library.natives.lookup method).isSome

/-- True if the method takes a box or a state apart, or looks at the mode. -/
def Looks (method : MethodRef) : Prop :=
  method ∈ [Capability.getMode, Capability.getPoint, Capability.getStack, Capability.getLocals] ∨
    ∃ k : NumericKind, method = k.unbox

theorem inLibrary_box (k : NumericKind) : InLibrary k.box := by cases k <;> rfl

theorem Looks.unbox (k : NumericKind) : Looks k.unbox := .inr ⟨k, rfl⟩

/-- True if the method is one of the library that takes no state from a capability. -/
def Retains (method : MethodRef) : Prop := method.InLibrary ∧ method ≠ Capability.popState

theorem retains_box (k : NumericKind) : Retains k.box := by
  refine ⟨inLibrary_box k, ?_⟩
  cases k <;> decide

theorem Looks.retains {method : MethodRef} (h : Looks method) : Retains method := by
  rcases h with h | ⟨k, rfl⟩
  · simp only [List.mem_cons, List.not_mem_nil, or_false] at h
    rcases h with rfl | rfl | rfl | rfl <;> exact ⟨rfl, by decide⟩
  · cases k <;> exact ⟨rfl, by decide⟩

end MethodRef

namespace Method

open Snapshot MethodRef

variable (t : SlotTable) (point : ContinuationPoint)

theorem callsOnly_pushState (id : Nat) : CallsOnly Retains (pushState t id) := by
  have hcreate : Retains Capability.createState := ⟨rfl, by decide⟩
  have hpush : Retains Capability.pushState := ⟨rfl, by decide⟩
  simp [pushState, loadReference, pushInt, Instruction.invoked?, hcreate, hpush]

theorem callsOnly_getMode {P : MethodRef → Prop} (h : P Capability.getMode) :
    CallsOnly P (getMode t) := by
  simp [getMode, loadReference, Instruction.invoked?, h]

/-- The code before a call that may suspend. -/
theorem callsOnly_saveBlock : CallsOnly Retains (point.saveBlock t) := by
  simp [ContinuationPoint.saveBlock, callsOnly_saveStack t retains_box,
    callsOnly_loadStack t fun k => (Looks.unbox k).retains, callsOnly_saveLocals t retains_box,
    Instruction.invoked?]

/-- The code after a call that may suspend. -/
theorem callsOnly_afterSave (proceed : Label) :
    CallsOnly Retains (point.afterSave t proceed) := by
  have hmode : Retains Capability.getMode := ⟨rfl, by decide⟩
  simp [ContinuationPoint.afterSave, callsOnly_getMode t hmode, callsOnly_pushState,
    callsOnly_leaveEarly, Instruction.invoked?]

/-- The code in the place where a method suspends itself. -/
theorem callsOnly_suspendBlock : CallsOnly Retains (point.suspendBlock t) := by
  have hmode : Retains Capability.setMode := ⟨rfl, by decide⟩
  simp [ContinuationPoint.suspendBlock, callsOnly_saveStack t retains_box,
    callsOnly_saveLocals t retains_box, setMode, loadReference, callsOnly_pushState,
    callsOnly_leaveEarly, Instruction.invoked?, hmode]

variable (d : Method) (frames : Frames)

/-- Looking at the mode. -/
theorem callsOnly_dispatch : CallsOnly Looks d.dispatch := by
  have hmode : Looks Capability.getMode := .inl (by simp)
  simp [dispatch, loadReference, storeReference, Instruction.invoked?, callsOnly_getMode _ hmode]

/-- Restoring frames. -/
theorem callsOnly_loadBlocks : CallsOnly Looks (d.loadBlocks frames) := by
  refine .flatMap fun (point, here) _ => ?_
  simp [ContinuationPoint.loadBlock, callsOnly_loadStack _ Looks.unbox,
    callsOnly_loadLocals _ Looks.unbox, Instruction.invoked?]

/-- The code before the method's own one. -/
theorem callsOnly_prologue : CallsOnly InLibrary (d.prologue frames) := by
  have hlooks {code : List Instruction} (h : CallsOnly Looks code) : CallsOnly InLibrary code :=
    fun i hi kind method hinvoked => (h i hi kind method hinvoked).retains.1
  have hpop : InLibrary Capability.popState := rfl
  have hpoint : InLibrary Capability.getPoint := rfl
  have hstack : InLibrary Capability.getStack := rfl
  have hlocals : InLibrary Capability.getLocals := rfl
  rw [prologue_eq]
  simp [pointDispatch, faults, hlooks (d.callsOnly_dispatch), hlooks (d.callsOnly_loadBlocks frames),
    popState, fail, loadReference, storeReference, Instruction.invoked?, hpop, hpoint, hstack, hlocals]

end Method

end Resumable
