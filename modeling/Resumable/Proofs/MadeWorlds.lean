import Resumable.Proofs.Promises
import Resumable.Proofs.SnapshotRuns

/-!
# The worlds that a machine makes

What's in a world has been put there by instructions, by natives of the library, or by the host.  The
host may hand in objects of all kinds but states, and it may make capabilities, change their modes and
drop states.  In all the worlds that come about in this way states hold arrays of objects, and
capabilities hold states.  So there the natives of the library keep what their descriptors promise,
except that boxing, invoked as a virtual method, never does.
-/

namespace Resumable

namespace World

variable {w w' : World}

/-- The worlds that come about by what executed code, the library and the host do. -/
inductive Made : World → Prop
  | empty : Made .empty
  /-- An instruction is executed, verified or not. -/
  | execute {w w' : World} {f f' : ValueFrame} {i : Instruction} {flow : Flow} (made : Made w)
      (executed : f.execute w i = .ok (flow, f', w')) : Made w'
  /-- A native of the library is called with arguments of its types. -/
  | native {w : World} {method : MethodRef} {n : Native} {kind : InvokeKind} {args : List Value}
      (made : Made w) (registered : Library.natives.lookup method = some n)
      (fit : List.Forall₂ (fun v t => w.isInstance v t) args (Machine.argumentTypes method kind)) :
      Made (n w args).2
  /-- The host hands in an object. -/
  | object {w : World} {o : Object} (made : Made w)
      (notState : ∀ point stack locals, o ≠ .state point stack locals) : Made (w.allocate o).2
  | newCapability {w : World} (made : Made w) : Made w.newCapability.2
  /-- The host changes a capability, but for pushing states. -/
  | modifyCell {w : World} {n : Nat} {f : CapabilityCell → CapabilityCell} (made : Made w)
      (drops : ∀ a ∈ (f (w.cell n)).states, a ∈ (w.cell n).states) : Made (w.modifyCell n f)

/-- Instructions keep to the rules for states. -/
theorem Genuine.changes (hw : w.Genuine) (h : ValueFrame.Changes w w') : w'.Genuine := by
  cases h with
  | none => exact hw
  | string text => exact hw.allocate (by simp)
  | newArray element length => exact hw.allocate (by simp)
  | setElement address index v => exact hw.setElement address index v

/-- Boxing keeps to them, too, whatever's boxed. -/
theorem Genuine.box (hw : w.Genuine) (args : List Value) :
    (Library.native Library.box w args).2.Genuine := by
  cases args with
  | nil => exact hw
  | cons content rest => exact hw.allocate (by simp)

theorem Honours.genuine {returns : Option ValueType}
    {outcome : Except MachineError (Option Value) × World} (h : w.Honours returns outcome)
    (hw : w.Genuine) : outcome.2.Genuine := by
  cases h with
  | fails e => exact hw
  | gives promised follows => exact follows.genuine

/-- The natives of the library keep to the rules for states, however they're invoked. -/
theorem Genuine.native (hw : w.Genuine) {method : MethodRef} {n : Native} {kind : InvokeKind}
    {args : List Value} (registered : Library.natives.lookup method = some n)
    (fit : List.Forall₂ (fun v t => w.isInstance v t) args (Machine.argumentTypes method kind)) :
    (n w args).2.Genuine := by
  by_cases hbox : ∃ k : NumericKind, method = k.box
  · obtain ⟨k, rfl⟩ := hbox
    obtain rfl := Option.some.inj ((Snapshot.lookup_box k).symm.trans registered)
    exact hw.box args
  · exact (Library.honours_of_lookup registered hw fit
      fun _ k heq => hbox ⟨k, heq⟩).genuine hw

theorem Made.genuine (h : w.Made) : w.Genuine := by
  induction h with
  | empty => exact genuine_empty
  | execute _ executed ih => exact ih.changes (ValueFrame.changes_execute executed)
  | native _ registered fit ih => exact ih.native registered fit
  | object _ notState ih =>
      apply ih.allocate
      intro point stack locals heq
      exact absurd heq (notState point stack locals)
  | newCapability _ ih => exact ih.newCapability
  | @modifyCell w n f _ drops ih =>
      apply ih.modifyCell
      intro a ha
      exact ih.pushed n a (drops a ha)

end World

namespace Library

/-- The natives of the library, called with arguments of their types in a world that a machine has
made, fail or return what their descriptors promise; what's taken out of a box is a primitive of the
box's kind.  But boxing that's invoked as a virtual method never returns a box of its kind. -/
theorem natives_promise {method : MethodRef} {n : Native} {kind : InvokeKind} {w : World}
    {args : List Value} (registered : natives.lookup method = some n) (made : w.Made)
    (fit : List.Forall₂ (fun v t => w.isInstance v t) args (Machine.argumentTypes method kind))
    (receiver : kind = .virtual → args.head?.all Value.isNull = false) :
    (¬(kind = .virtual ∧ ∃ k : NumericKind, method = k.box) →
      w.Honours method.type.returns (n w args) ∧
        ∀ k : NumericKind, method = k.unbox → ∀ result w', n w args = (.ok result, w') →
          ∃ v, result = some v ∧ v.kind = k.toValueKind) ∧
    ((kind = .virtual ∧ ∃ k : NumericKind, method = k.box) →
      ∃ v w', n w args = (.ok (some v), w') ∧ w'.typeOf v = .root ∧
        ¬w'.Promised (some v) method.type.returns) := by
  constructor
  · intro boxing
    constructor
    · apply honours_of_lookup registered made.genuine fit
      intro hkind k heq
      exact boxing ⟨hkind, k, heq⟩
    · rintro k rfl result w' hresult
      obtain rfl := Option.some.inj ((Snapshot.lookup_unbox k).symm.trans registered)
      unfold native at hresult
      cases hanswer : unbox w args with
      | error e =>
          rw [hanswer] at hresult
          cases hresult
      | ok answer =>
          obtain ⟨result, w'⟩ := answer
          rw [hanswer] at hresult
          cases hresult
          exact (kind_of_unbox fit hanswer).2
  · rintro ⟨rfl, k, rfl⟩
    obtain rfl := Option.some.inj ((Snapshot.lookup_box k).symm.trans registered)
    exact box_of_virtual fit (receiver rfl)

/-- A world with a box. -/
def oneBox : World := (World.empty.allocate (.box (.int 5))).2

/-- The box gives back its number.  A number that's boxed by a virtual invocation on the box is
lost. -/
theorem natives_promise_oneBox :
    (∃ v, oneBox.Honours (some .int) (native unbox oneBox [.object 0]) ∧
        native unbox oneBox [.object 0] = (.ok (some v), oneBox) ∧ v.kind = .int) ∧
      ∃ v w', native box oneBox [.object 0, .int 7] = (.ok (some v), w') ∧
        ¬w'.isInstance v (.object NumericKind.int.boxTypeName) := by
  have made : oneBox.Made := .object .empty (by simp)
  have fit : List.Forall₂ (fun v t => oneBox.isInstance v t) [.object 0]
      (Machine.argumentTypes NumericKind.int.unbox .virtual) := .cons (by decide) .nil
  have boxFit : List.Forall₂ (fun v t => oneBox.isInstance v t) [.object 0, .int 7]
      (Machine.argumentTypes NumericKind.int.box .virtual) :=
    .cons (by decide) (.cons (by decide) .nil)
  obtain ⟨hunbox, -⟩ :=
    natives_promise (Snapshot.lookup_unbox .int) made fit (fun _ => by decide)
  obtain ⟨honours, hkind⟩ := hunbox (by rintro ⟨-, k, hk⟩; cases k <;> exact absurd hk (by decide))
  obtain ⟨v, hv, hint⟩ := hkind .int rfl (some (.int 5)) oneBox rfl
  obtain ⟨-, hbox⟩ := natives_promise (Snapshot.lookup_box .int) made boxFit (fun _ => by decide)
  obtain ⟨v', w', hresult, -, hbroken⟩ := hbox ⟨rfl, .int, rfl⟩
  exact ⟨⟨v, honours, hv ▸ rfl, hint⟩, v', w', hresult, hbroken⟩

end Library

end Resumable
