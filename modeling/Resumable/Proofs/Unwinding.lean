import Resumable.Proofs.Resumption

/-!
# Unwinding a chain of methods

A method that suspends itself saves its frame, pushes the state and leaves in saving mode.  The
methods that wait for it push their states and leave one after the other, since each has recorded
its frame before the call.  In the end the capability holds one state for each of them.
-/

namespace Resumable

open CallState Snapshot Machine

namespace World

variable {w u v : World} {n : Nat}

/-- True if all objects are still there and are what they were. -/
def Extends (w u : World) : Prop := ∀ a o, w.object? a = some o → u.object? a = some o

namespace Extends

theorem refl (w : World) : w.Extends w := fun _ _ ho => ho

theorem trans (h : w.Extends u) (k : u.Extends v) : w.Extends v := fun a o ho => k a o (h a o ho)

theorem proceeds (h : w.Extends u) : w.Proceeds u := fun a o ho => ⟨o, h a o ho, .same o⟩

theorem spares (h : w.Extends u) (known : Nat → Prop) : Spares known known w u :=
  ⟨fun _ ha => .inl ha, fun a o _ ho => h a o ho, h.proceeds⟩

end Extends

theorem cell_pushed (hn : n < w.capabilities.size) (point : Int32) (s l : Value) :
    (w.pushed n point s l).cell n = (w.cell n).push w.objects.size :=
  cell_modifyCell_self (w := (w.allocate (.state point s l)).2) hn _

theorem size_modifyCell (w : World) (n : Nat) (f : CapabilityCell → CapabilityCell) :
    (w.modifyCell n f).capabilities.size = w.capabilities.size := Array.size_modify

/-- True if nothing has changed but that there are new objects, and the capability with the given
number. -/
structure GrowsBut (n : Nat) (w u : World) : Prop where
  objects : w.Extends u
  journal : u.journal = w.journal
  size : u.capabilities.size = w.capabilities.size
  others : ∀ k, k ≠ n → u.cell k = w.cell k

theorem Grows.growsBut (h : w.Grows u) (n : Nat) : GrowsBut n w u :=
  ⟨h.objects, h.journal, by rw [h.capabilities], fun k _ => cell_congr h.capabilities k⟩

namespace GrowsBut

theorem refl (n : Nat) (w : World) : GrowsBut n w w := ⟨.refl w, rfl, rfl, fun _ _ => rfl⟩

theorem trans (h : GrowsBut n w u) (k : GrowsBut n u v) : GrowsBut n w v :=
  ⟨h.objects.trans k.objects, k.journal.trans h.journal, k.size.trans h.size,
    fun i hi => (k.others i hi).trans (h.others i hi)⟩

theorem modifyCell (w : World) (n : Nat) (f : CapabilityCell → CapabilityCell) :
    GrowsBut n w (w.modifyCell n f) := by
  refine ⟨.refl w, rfl, size_modifyCell w n f, fun k hk => ?_⟩
  simp [cell, World.modifyCell, Array.getElem?_modify, Ne.symm hk]

theorem pushed (w : World) (n : Nat) (point : Int32) (s l : Value) :
    GrowsBut n w (w.pushed n point s l) :=
  ((Grows.allocate w (.state point s l)).growsBut n).trans (.modifyCell _ n _)

/-- If the one capability is as before then they all are. -/
theorem capabilities_eq (h : GrowsBut n w u) (hn : u.cell n = w.cell n) :
    u.capabilities = w.capabilities := by
  refine Array.ext h.size fun k hk hk' => ?_
  have hcell : u.cell k = w.cell k := by
    by_cases hkn : k = n
    · rw [hkn, hn]
    · exact h.others k hkn
  rwa [cell, cell, Array.getD_eq_getD_getElem?, Array.getD_eq_getD_getElem?,
    Array.getElem?_eq_getElem hk, Array.getElem?_eq_getElem hk'] at hcell

end GrowsBut

theorem object?_pushed (w : World) (n : Nat) (point : Int32) (s l : Value) :
    (w.pushed n point s l).object? w.objects.size = some (.state point s l) :=
  (object?_allocate w (.state point s l) w.objects.size).trans (if_pos rfl)

end World

namespace Machine

variable {m : Machine} {a : Activation} {d : Method} {t : SlotTable} {w u : World} {n q : Nat}
  {own stack locals : List Value} {c s l x : Value} {callers : List Activation}

/-- Code that doesn't invoke the method that pushes states pushes none. -/
theorem pushes_of_inside {trail : List CallState} {code : List Instruction}
    (h : ∀ v ∈ trail, Inside a (Span q (q + code.length)) callers v)
    (hat : a.method.body.HasAt q code) (hcalls : CallsOnly (· ≠ Capability.pushState) code) :
    pushes n trail = [] := by
  refine pushes_eq_nil fun v hv kind hi => ?_
  obtain ⟨-, p, f, hcurrent, hp, hp'⟩ := h v hv
  rw [hcurrent] at hi
  exact hcalls.get? hat hp hp' hi rfl

/-- The code that pushes a state pushes one. -/
theorem advances_pushing (hm : m.Equipped) (ht : t.Follows d own.length) (hc : w.Stands n c)
    {id : Nat} (hat : a.method.body.HasAt q (pushState t id)) (stack : List Value)
    (callers : List Activation) (executed : Nat) :
    ∃ trail executed', m.Advances ⟨w, executed, spot a q ⟨own ++ [c, s, l, x], stack⟩, callers⟩
        trail ⟨w.pushed n (Int32.ofNat id) s l, executed',
          spot a (q + (pushState t id).length) ⟨own ++ [c, s, l, x], stack⟩, callers⟩ ∧
      (∀ v ∈ trail, Inside a (Span q (q + (pushState t id).length)) callers v) ∧
      pushes n trail = [⟨w.objects.size, a.owner, a.method, callers.length⟩] := by
  have hparts : pushState t id =
    (pushState t id).take 5 ++ [.invoke .virtual Capability.pushState] := rfl
  have hlengths : ((pushState t id).take 5).length = 5 ∧ (pushState t id).length = 6 := ⟨rfl, rfl⟩
  rw [hparts] at hat
  have hcreate : m.Crosses ((pushState t id).take 5) (⟨own ++ [c, s, l, x], stack⟩, w)
      (⟨own ++ [c, s, l, x], .object w.objects.size :: c :: stack⟩,
        (w.allocate (.state (Int32.ofNat id) s l)).2) := crosses_createState hm ht id
  obtain ⟨trail, executed', hadvances, hinside⟩ := hcreate a q hat.left callers executed
  have hpushes : pushes n trail = [] := by
    refine pushes_of_inside hinside hat.left ?_
    have hcreate : Capability.createState ≠ Capability.pushState := by decide
    simp [pushState, loadReference, pushInt, Instruction.invoked?, hcreate]
  rw [hlengths.1] at hadvances hinside
  let made := (w.allocate (.state (Int32.ofNat id) s l)).2
  have hinvoke := hat.right.head
  rw [hlengths.1] at hinvoke
  have hexecute : ValueFrame.execute made
      ⟨own ++ [c, s, l, x], .object w.objects.size :: c :: stack⟩
      (.invoke .virtual Capability.pushState) = .ok (.call .virtual Capability.pushState
        [c, .object w.objects.size], ⟨own ++ [c, s, l, x], stack⟩, made) :=
    @ValueFrame.execute_invoke made (own ++ [c, s, l, x]) [.object w.objects.size, c] stack .virtual
      Capability.pushState rfl
  have hnative : Library.native Library.pushState made [c, .object w.objects.size] =
      (.ok none, w.pushed n (Int32.ofNat id) s l) := by
    simp only [Library.native, made, pushState_of_allocate hc]
  have hnext := step_library (x := (⟨own ++ [c, s, l, x], .object w.objects.size :: c :: stack⟩,
    made)) hm hinvoke hexecute lookup_pushState (by simp [not_isNull_of_stands hc]) hnative callers
      executed'
  let pushing : CallState := ⟨made, executed', spot a (q + 5)
    ⟨own ++ [c, s, l, x], .object w.objects.size :: c :: stack⟩, callers⟩
  have hcall : pushing.invocation? = some (.virtual, Capability.pushState,
      [c, .object w.objects.size]) := by
    simp [invocation?, pushing, spot, hinvoke, hexecute]
  have hobject : made.object? w.objects.size = some (.state (Int32.ofNat id) s l) := by
    simp only [made, World.object?_allocate, if_true]
  have hpush : pushing.push? n = some ⟨w.objects.size, a.owner, a.method, callers.length⟩ :=
    push?_of_invocation? hcall (hc.proceeds (.allocate w _)) hobject
  refine ⟨trail ++ [pushing], executed' + 1, hadvances.trans (.one hnext), fun v hv => ?_, ?_⟩
  · rcases List.mem_append.1 hv with hv | hv
    · exact (hinside v hv).mono fun k hk => ⟨hk.1, by have := hk.2; omega⟩
    · obtain rfl := List.mem_singleton.1 hv
      exact ⟨rfl, q + 5, _, rfl, by omega, by omega⟩
  · rw [pushes_append, hpushes]
    simp [pushes, hpush]

/-- The code that leaves a method early leaves it, and leaves the world as it is. -/
theorem advances_leaving (hm : m.limits.instructions = none) {returns : Option ValueType}
    (hat : a.method.body.HasAt q (leaveEarly returns)) (w : World) (locals stack : List Value)
    (callers : List Activation) (executed : Nat) :
    ∃ trail last executed' current result,
      m.Advances ⟨w, executed, spot a q ⟨locals, stack⟩, callers⟩ trail last ∧
      m.step last = CallState.leave ⟨w, executed', current, callers⟩ result ∧
      ∀ v ∈ trail ++ [last], Inside a (Span q (q + (leaveEarly returns).length)) callers v := by
  cases returns with
  | none =>
      refine ⟨[], _, executed + 1, spot a q ⟨locals, stack⟩, none, .refl _, ?_, fun v hv => ?_⟩
      · rw [step_eq_execute hm (i := .leave none) hat.head]
        rfl
      · obtain rfl := List.mem_singleton.1 hv
        exact ⟨rfl, q, _, rfl, Nat.le_refl _, Nat.lt_succ_self _⟩
  | some type =>
      have hat' : a.method.body.HasAt q
          ([.const (zero type.kind)] ++ [.leave (some type.kind)]) := hat
      obtain ⟨v, hv, hexecute⟩ : ∃ v, w.constant (zero type.kind) = (v, w) ∧
          ValueFrame.execute w ⟨locals, v :: stack⟩ (.leave (some type.kind)) =
            .ok (.leave (some v), ⟨locals, stack⟩, w) := by
        cases type.kind <;> exact ⟨_, rfl, rfl⟩
      obtain ⟨trail, executed', hadvances, hinside⟩ :=
        (Crosses.const hm (zero type.kind)) a q hat'.left callers executed
      refine ⟨trail, _, executed' + 1, spot a (q + 1) ⟨locals, stack⟩, some v, hadvances, ?_,
        fun u hu => ?_⟩
      · rw [step_eq_execute hm (i := .leave (some type.kind)) hat'.right.head]
        simp only [step.execute, spot, hv, hexecute, follow]
        rfl
      · rcases List.mem_append.1 hu with hu | hu
        · exact (hinside u hu).mono fun k hk => ⟨hk.1, Nat.lt_succ_of_lt hk.2⟩
        · obtain rfl := List.mem_singleton.1 hu
          exact ⟨rfl, q + 1, _, rfl, Nat.le_succ q, Nat.lt_succ_self _⟩

/-- A method that pushes its state, does what else there is to do and leaves, pushes one state. -/
theorem advances_saving (hm : m.Equipped) (ht : t.Follows d own.length) (hc : w.Stands n c)
    {id : Nat} {code : List Instruction} {returns : Option ValueType}
    (hat : a.method.body.HasAt q (pushState t id ++ (code ++ leaveEarly returns)))
    (hcode : m.Crosses code (⟨own ++ [c, s, l, x], stack⟩, w.pushed n (Int32.ofNat id) s l)
      (⟨own ++ [c, s, l, x], stack⟩, u))
    (hcalls : CallsOnly (· ≠ Capability.pushState) code) (callers : List Activation)
    (executed : Nat) :
    ∃ trail last executed' current result,
      m.Advances ⟨w, executed, spot a q ⟨own ++ [c, s, l, x], stack⟩, callers⟩ trail last ∧
      m.step last = CallState.leave ⟨u, executed', current, callers⟩ result ∧
      (∀ v ∈ trail ++ [last], Inside a
        (Span q (q + (pushState t id ++ (code ++ leaveEarly returns)).length)) callers v) ∧
      pushes n (trail ++ [last]) = [⟨w.objects.size, a.owner, a.method, callers.length⟩] := by
  obtain ⟨trail₁, executed₁, hadvances₁, hinside₁, hpushes₁⟩ :=
    advances_pushing (s := s) (l := l) (x := x) hm ht hc hat.left stack callers executed
  obtain ⟨trail₂, executed₂, hadvances₂, hinside₂⟩ := hcode a _ hat.right.left callers executed₁
  obtain ⟨trail₃, last, executed₃, current, result, hadvances₃, hlast, hinside₃⟩ :=
    advances_leaving hm.unlimited hat.right.right u (own ++ [c, s, l, x]) stack callers executed₂
  refine ⟨trail₁ ++ (trail₂ ++ trail₃), last, executed₃, current, result,
    hadvances₁.trans (hadvances₂.trans hadvances₃), hlast, fun v hv => ?_, ?_⟩
  · rw [List.append_assoc, List.append_assoc] at hv
    rcases List.mem_append.1 hv with hv | hv
    · exact (hinside₁ v hv).mono fun _ hk => hk.append_left
    · rcases List.mem_append.1 hv with hv | hv
      · exact (hinside₂ v hv).mono fun _ hk => .append_right hk.append_left
      · exact (hinside₃ v hv).mono fun _ hk => .append_right (.append_right hk)
  · rw [List.append_assoc, List.append_assoc, pushes_append, pushes_append, hpushes₁,
      pushes_of_inside hinside₂ hat.right.left hcalls,
      pushes_of_inside hinside₃ hat.right.right (callsOnly_leaveEarly returns)]
    rfl

end Machine

theorem NumericKind.box_ne_pushState (k : NumericKind) : k.box ≠ Capability.pushState := by
  cases k <;> decide

theorem Snapshot.callsOnly_saveFrame {P : MethodRef → Prop} (t : SlotTable)
    (h : ∀ k : NumericKind, P k.box) (g : Frame) : CallsOnly P (saveFrame t g false) := by
  simp [saveFrame, callsOnly_saveStack t h, callsOnly_saveLocals t h]

namespace ContinuationPoint

variable {m : Machine} {a : Activation} {d : Method} {t : SlotTable} {known : Nat → Prop}
  {w : World} {n q : Nat} {own : List Value} {c : Value} {point : ContinuationPoint}

theorem restored_of_save (hsave : point.kind = .save) : point.restored = point.frame := by
  simp [restored, restoredStack, hsave]

/-- The code after a call pushes the state and leaves, if states are being saved. -/
theorem advances_afterSave (hm : m.Equipped) (ht : t.Follows d own.length) (hc : w.Stands n c)
    (saving : (w.cell n).mode = Capability.saving) {proceed : Label}
    (hat : a.method.body.HasAt q (point.afterSave t proceed)) (stack : List Value) (s l x : Value)
    (callers : List Activation) (executed : Nat) :
    ∃ trail last executed' current result,
      m.Advances ⟨w, executed, spot a q ⟨own ++ [c, s, l, x], stack⟩, callers⟩ trail last ∧
      m.step last = CallState.leave
        ⟨w.pushed n (Int32.ofNat point.id) s l, executed', current, callers⟩ result ∧
      (∀ v ∈ trail ++ [last],
        Inside a (Span q (q + (point.afterSave t proceed).length)) callers v) ∧
      pushes n (trail ++ [last]) = [⟨w.objects.size, a.owner, a.method, callers.length⟩] := by
  have hparts : point.afterSave t proceed =
      (getMode t ++ [.const (.int Capability.saving), .ifCompare .notEqual proceed]) ++
        ((pushState t point.id ++ ([] ++ leaveEarly point.returns)) ++ [.label proceed]) := by
    simp [afterSave_eq]
  rw [hparts] at hat ⊢
  have hlook : m.Crosses
      (getMode t ++ [.const (.int Capability.saving), .ifCompare .notEqual proceed])
      (⟨own ++ [c, s, l, x], stack⟩, w) (⟨own ++ [c, s, l, x], stack⟩, w) :=
    crosses_saving hm ht hc saving proceed
  obtain ⟨trail₁, executed₁, hadvances₁, hinside₁⟩ := hlook a _ hat.left callers executed
  obtain ⟨trail₂, last, executed₂, current, result, hadvances₂, hlast, hinside₂, hpushes⟩ :=
    advances_saving (x := x) hm ht hc hat.right.left
      (.nil m (⟨own ++ [c, s, l, x], stack⟩, _)) (by simp) callers executed₁
  refine ⟨trail₁ ++ trail₂, last, executed₂, current, result, hadvances₁.trans hadvances₂, hlast,
    fun v hv => ?_, ?_⟩
  · rw [List.append_assoc] at hv
    rcases List.mem_append.1 hv with hv | hv
    · exact (hinside₁ v hv).mono fun _ hk => hk.append_left
    · exact (hinside₂ v hv).mono fun _ hk => .append_right hk.append_left
  · rw [List.append_assoc, pushes_append, hpushes, pushes_of_inside hinside₁ hat.left]
    · rfl
    · exact CallsOnly.append_iff.2
        ⟨Method.callsOnly_getMode _ (by decide), by simp [Instruction.invoked?]⟩

/-- The code where a method suspends itself saves its frame, pushes the state, sets the mode and
leaves. -/
theorem advances_suspendBlock (hm : m.Equipped) (ht : t.Follows d own.length)
    (hown : own.length ≤ 65535) (hc : w.Stands n c) (receiver : Value) {stack : List Value}
    (hsaves : ValueFrame.Meets w ⟨own, stack⟩ point.restored)
    (hroom : point.restored.stack.length < 2147483648)
    (hfresh : ∀ b, w.objects.size ≤ b → ¬ known b)
    (hat : a.method.body.HasAt q (point.suspendBlock t)) (s l x : Value)
    (callers : List Activation) (executed : Nat) :
    ∃ u s' l' trail last executed' current result,
      m.Advances ⟨w, executed, spot a q ⟨own ++ [c, s, l, x], receiver :: stack⟩, callers⟩ trail
        last ∧
      m.step last = CallState.leave ⟨(u.pushed n (Int32.ofNat point.id) s' l').modifyCell n
        fun cell => { cell with mode := Capability.saving }, executed', current, callers⟩ result ∧
      (∀ v ∈ trail ++ [last], Inside a (Span q (q + (point.suspendBlock t).length)) callers v) ∧
      pushes n (trail ++ [last]) = [⟨u.objects.size, a.owner, a.method, callers.length⟩] ∧
      w.Grows u ∧ u.Records known point.restored ⟨own, stack⟩ s' l' := by
  have hparts : point.suspendBlock t = (.pop :: saveFrame t point.restored false) ++
      ((pushState t point.id ++ (setMode t Capability.saving ++ leaveEarly point.returns)) ++
        [.label point.restoreLabel]) := by
    simp [suspendBlock_eq]
  rw [hparts] at hat ⊢
  obtain ⟨u, s', l', x', hsave, hgrows, hrecords⟩ :=
    crosses_saveFrame (c := c) hm ht hown hroom hsaves hfresh false s l x
  obtain ⟨trail₁, executed₁, hadvances₁, hinside₁⟩ :=
    ((Crosses.pop hm.unlimited (v := receiver)).cons hsave) a _ hat.left callers executed
  have hmode : m.Crosses (setMode t Capability.saving)
      (⟨own ++ [c, s', l', x'], []⟩, u.pushed n (Int32.ofNat point.id) s' l')
      (⟨own ++ [c, s', l', x'], []⟩, (u.pushed n (Int32.ofNat point.id) s' l').modifyCell n
        fun cell => { cell with mode := Capability.saving }) :=
    crosses_setMode hm ht (hc.proceeds (hgrows.proceeds.trans (World.proceeds_pushed u n _ _ _))) _
  have hcalls : CallsOnly (· ≠ Capability.pushState) (setMode t Capability.saving) := by
    have hset : Capability.setMode ≠ Capability.pushState := by decide
    simp [setMode, loadReference, Instruction.invoked?, hset]
  obtain ⟨trail₂, last, executed₂, current, result, hadvances₂, hlast, hinside₂, hpushes⟩ :=
    advances_saving hm ht (hc.proceeds hgrows.proceeds) hat.right.left hmode hcalls callers executed₁
  refine ⟨u, s', l', trail₁ ++ trail₂, last, executed₂, current, result,
    hadvances₁.trans hadvances₂, hlast, fun v hv => ?_, ?_, hgrows, hrecords⟩
  · rw [List.append_assoc] at hv
    rcases List.mem_append.1 hv with hv | hv
    · exact (hinside₁ v hv).mono fun _ hk => hk.append_left
    · exact (hinside₂ v hv).mono fun _ hk => .append_right hk.append_left
  · rw [List.append_assoc, pushes_append, hpushes, pushes_of_inside hinside₁ hat.left]
    · rfl
    · exact CallsOnly.cons_iff.2 ⟨fun _ _ h => (by cases h),
        callsOnly_saveFrame _ NumericKind.box_ne_pushState _⟩

end ContinuationPoint

/-- Where a method suspends itself it has a point, and no code before the instruction's block. -/
theorem Method.exists_suspend {d : Method} {frames : Frames} {p : Nat} {g : Frame}
    (hg : frames.at? p = some g) (hi : d.body.get? p = some (.invoke .virtual Capability.suspend)) :
    ∃ point proceed, point ∈ d.points frames ∧ d.site? frames p = some (point, proceed) ∧
      point.position = p ∧ point.frame = g ∧ point.kind = .suspend ∧
      d.newPosition frames p = d.blockStart frames p := by
  obtain ⟨point, hmem, rfl⟩ := Method.exists_point hg hi (.inl rfl)
  obtain ⟨proceed, hsite⟩ := Method.exists_site hmem
  obtain ⟨-, -, hframe, -, hkind⟩ := Method.of_site? hsite hg hi
  have hsuspend : point.kind = .suspend := by
    cases hk : point.kind with
    | suspend => rfl
    | save =>
        rw [hk] at hkind
        cases hkind
  exact ⟨point, proceed, hmem, hsite, rfl, hframe, hsuspend, newPosition_of_suspend hsite hsuspend⟩

/-- The frames that go with the states, as they're pushed by the activations, the innermost one
first. -/
def CallState.shifts : List Activation → List Nat → List Shift
  | a :: callers, state :: states =>
    ⟨state, a.owner, a.method, callers.length⟩ :: shifts callers states
  | _, _ => []

/-- True if the state with the given number is of the point, and its arrays hold the frame that's
restored there. -/
def World.Remembers (known : Nat → Prop) (w : World) (state : Nat) (point : ContinuationPoint)
    (f : ValueFrame) : Prop :=
  ∃ s l, w.object? state = some (.state (Int32.ofNat point.id) s l) ∧
    w.Records known point.restored f s l

theorem World.Remembers.spares {known known' : Nat → Prop} {w u : World} {state : Nat}
    {point : ContinuationPoint} {f : ValueFrame} (h : w.Remembers known state point f)
    (hw : World.Spares known known' w u) : u.Remembers known' state point f := by
  obtain ⟨s, l, hstate, hrecords⟩ := h
  exact ⟨s, l, hw.proceeds.state hstate, hrecords.spares hw⟩

namespace Activation

variable {m m₀ : Machine} {n depth state : Nat} {known known' : Nat → Prop} {w u : World}
  {owner : String} {callee : Method} {a a₀ : Activation}

/-- True if the first activation is at the point, of the resumable form of the second one's method,
and its frame with the given operand stack is in the state with the given number. -/
structure Rests (m₀ : Machine) (known : Nat → Prop) (w : World) (frames : Frames)
    (point : ContinuationPoint) (state : Nat) (stack : List Value) (a a₀ : Activation) : Prop where
  owner : a.owner = a₀.owner
  at_ : a.At m₀ a₀.method frames point
  length : a₀.frame.locals.length = a₀.method.maxLocals.toNat
  here : point.position = a₀.position
  remembers : w.Remembers known state point ⟨a₀.frame.locals, stack⟩

/-- True if the frame of the first activation, which waits for the method, is in the state with the
given number.  What it waits for can be called again. -/
inductive Parks (m m₀ : Machine) (n : Nat) (known : Nat → Prop) (w : World) (depth : Nat)
    (owner : String) (callee : Method) (state : Nat) (a a₀ : Activation) : Prop
  | intro {frames : Frames} {point : ContinuationPoint} {kind : InvokeKind} {method : MethodRef}
      {args : List Value}
      (rests : a.Rests m₀ known w frames point state (args.reverse ++ a₀.frame.stack) a₀)
      (save : point.kind = .save)
      (call : a₀.method.body.get? a₀.position = some (.invoke kind method))
      (length : args.length = (argumentTypes method kind).length)
      (reenters : m.Reenters (· = n) w depth kind method args owner callee)

theorem Rests.spares {frames : Frames} {point : ContinuationPoint} {stack : List Value}
    (h : a.Rests m₀ known w frames point state stack a₀) (hw : World.Spares known known' w u) :
    a.Rests m₀ known' u frames point state stack a₀ :=
  { h with remembers := h.remembers.spares hw }

theorem Parks.spares (h : a.Parks m m₀ n known w depth owner callee state a₀)
    (hw : World.Spares known known' w u) : a.Parks m m₀ n known' u depth owner callee state a₀ := by
  obtain ⟨rests, save, call, length, reenters⟩ := h
  exact ⟨rests.spares hw, save, call, length, reenters.proceeds hw.proceeds⟩

theorem Parks.marked (h : a.Parks m m₀ n known w depth owner callee state a₀) :
    a.method.access.isInstrumented := by
  obtain ⟨rests, -, -, -, -⟩ := h
  exact rests.at_.made.resumes.marked

/-- The only capability there is stands in its slot. -/
theorem Carries.stands {frames : Frames} {c s l x : Value}
    (h : a.Carries (· = n) w frames c s l x a₀) : w.Stands n c := by
  obtain ⟨_, heq, hc⟩ := h.capability
  exact (show _ = n from heq) ▸ hc

theorem Carries.at_ {cells : Nat → Prop} {frames : Frames} {c s l x : Value}
    (h : a.Carries cells w frames c s l x a₀) (hloaded : a₀.Loaded m₀) {point : ContinuationPoint}
    (hmem : point ∈ a₀.method.points frames)
    (hposition : a.position = a₀.method.newPosition frames point.position) :
    a.At m₀ a₀.method frames point := by
  refine ⟨⟨?_, h.owner ▸ h.resumes⟩, hmem, hposition⟩
  rw [h.owner, h.resumes.name, h.resumes.type]
  exact hloaded

/-- A method that gets back to where it waited pushes its state and leaves, if states are being
saved. -/
theorem Blocked.saves (hm : m.Equipped) (h : a.Blocked m (· = n) known w depth owner callee a₀)
    (hloaded : a₀.Loaded m₀) (hcallee : callee.access.isInstrumented)
    (ha : a.method.access.isInstrumented) (saving : (w.cell n).mode = Capability.saving)
    (hn : n < w.capabilities.size) (result : Option Value) (callers : List Activation) (executed : Nat) :
    ∃ u trail last executed' current result',
      m.Advances ⟨w, executed, CallState.resumed a result, callers⟩ trail last ∧
      m.step last = CallState.leave ⟨u, executed', current, callers⟩ result' ∧
      (∀ v ∈ trail ++ [last], v.current.Calm) ∧
      pushes n (trail ++ [last]) = [⟨w.objects.size, a.owner, a.method, callers.length⟩] ∧
      World.GrowsBut n w u ∧ u.cell n = (w.cell n).push w.objects.size ∧
      a.Parks m m₀ n known u depth owner callee w.objects.size a₀ := by
  cases h with
  | plain h =>
      rw [h] at ha
      cases ha
  | @resumable frames c s l x kind method _ _ carries position call sited records =>
      obtain ⟨⟨point, proceed⟩, hsite⟩ := Option.isSome_iff_exists.1 (sited hcallee)
      obtain ⟨hsave, args, hargs, hrecords, hreenters⟩ := records point proceed hsite
      obtain ⟨hmem, hhere⟩ := Method.site?_eq_some.1 hsite
      generalize hstack : (pushResult a₀.frame result).stack = stack
      obtain ⟨trail, last, executed', current, result', hadvances, hlast, hinside, hpushes⟩ :=
        ContinuationPoint.advances_afterSave hm (carries.length ▸ carries.resumes.follows)
          carries.stands saving (carries.resumes.hasAt_afterSave call hsite hsave) stack s l x callers
          executed
      rw [← Method.blockStart_succ_of_save hsite hsave call] at hinside
      have hgrows := World.GrowsBut.pushed w n (Int32.ofNat point.id) s l
      have hextends := hgrows.objects
      have hat := carries.at_ hloaded (Method.mem_points_of_mem_sites hmem)
        (position.trans (congrArg _ hhere.symm))
      refine ⟨_, trail, last, executed', current, result', ?advances, hlast, ?calm, hpushes, hgrows, 
        World.cell_pushed hn _ _ _, .intro ⟨carries.owner, hat, carries.length, hhere, s, l,
          World.object?_pushed w n _ _ _, ?records⟩ hsave call hargs
          (hreenters.proceeds hextends.proceeds)⟩
      case advances =>
        rw [resumed_eq, carries.frame, ValueFrame.pushResult_extend, position]
        have hframe : (pushResult a₀.frame result).extend [c, s, l, x] =
            ⟨a₀.frame.locals ++ [c, s, l, x], stack⟩ := by
          rw [ValueFrame.extend, ValueFrame.locals_pushResult, hstack]
        rw [hframe]
        exact hadvances
      case calm =>
        exact fun v hv => calm_of_inside (hinside v hv) fun q f hspan => carries.calm_after call
          (fun point proceed hsite => (records point proceed hsite).1) f hspan
      case records =>
        rw [ContinuationPoint.restored_of_save hsave]
        exact hrecords.spares (hextends.spares known)

/-- Where a method is about to suspend itself the capability is on top of the operand stack, and
isn't part of the frame that the point restores. -/
theorem Poised.exists_suspend {frames : Frames} {g g' : Frame}
    (hp : a₀.Poised known w frames g (.invoke .virtual Capability.suspend) g') :
    ∃ point proceed receiver stack, point ∈ a₀.method.points frames ∧
      a₀.method.site? frames a₀.position = some (point, proceed) ∧ point.position = a₀.position ∧
      point.kind = .suspend ∧
      a₀.method.newPosition frames a₀.position = a₀.method.blockStart frames a₀.position ∧
      a₀.frame.stack = receiver :: stack ∧
      ValueFrame.Meets w ⟨a₀.frame.locals, stack⟩ point.restored ∧
      point.restored.stack.length < 2147483648 := by
  obtain ⟨point, proceed, hmem, hsite, hhere, hframe, hsuspend, hnew⟩ :=
    Method.exists_suspend hp.frame hp.get?
  obtain ⟨type, -, hg⟩ := Method.rule_isSuspend rfl hp.rule
  have hmeets := hp.meets
  rw [hg] at hmeets
  obtain ⟨hstack, hlocals⟩ := hmeets
  obtain ⟨receiver, stack, hframe₀⟩ : ∃ receiver stack, a₀.frame.stack = receiver :: stack :=
    List.exists_cons_of_length_pos (by rw [hstack.length_eq]; simp)
  rw [hframe₀] at hstack
  have hrestored : point.restored = g' := by
    simp [ContinuationPoint.restored, ContinuationPoint.restoredStack, hsuspend, hframe, hg]
  refine ⟨point, proceed, receiver, stack, hmem, hsite, hhere, hsuspend, hnew, hframe₀,
    hrestored ▸ ⟨(List.forall₂_cons.1 hstack).2, hlocals⟩, ?_⟩
  have := hp.length_stack
  rw [hg, List.length_cons] at this
  rw [hrestored]
  omega

/-- All code of the block of an instruction that suspends has been added. -/
theorem Carries.calm_suspending {cells : Nat → Prop} {frames : Frames} {c s l x : Value}
    (h : a.Carries cells w frames c s l x a₀) {p q : Nat}
    (hi : a₀.method.body.get? p = some (.invoke .virtual Capability.suspend))
    {point : ContinuationPoint} {proceed : Label}
    (hsite : a₀.method.site? frames p = some (point, proceed)) (hsuspend : point.kind = .suspend)
    (f : ValueFrame)
    (hspan : Span (a₀.method.blockStart frames p) (a₀.method.blockStart frames (p + 1)) q) :
    (Machine.spot a q f).Calm := by
  refine calm_block (a := Machine.spot a q f) (h.owner ▸ h.resumes) hspan.1 hspan.2
    (fun hsurvives _ => hsurvives point proceed hsite hsuspend)
    (h.resumes.hasAt_suspendBlock hi hsite hsuspend) (Method.callsOnly_suspendBlock _ _) hspan.1 ?_
  rw [← Method.blockStart_succ_of_suspend hsite hsuspend hi]
  exact hspan.2

/-- A method that suspends itself pushes its state, sets the mode and leaves. -/
theorem Begins.suspends (hm : m.Equipped) (h : a.Begins (· = n) w a₀) {frames : Frames}
    {g g' : Frame} {K : Nat → Prop}
    (hp : a₀.Poised K w frames g (.invoke .virtual Capability.suspend) g')
    (hloaded : a₀.Loaded m₀) (ha : a.method.access.isInstrumented) (hn : n < w.capabilities.size)
    (hbounded : ∀ b, known b → b < w.objects.size) (callers : List Activation) (executed : Nat) :
    ∃ point state u trail last executed' current result,
      m.Advances ⟨w, executed, a, callers⟩ trail last ∧
      m.step last = CallState.leave ⟨u, executed', current, callers⟩ result ∧
      (∀ v ∈ trail ++ [last], v.current.Calm) ∧
      pushes n (trail ++ [last]) = [⟨state, a.owner, a.method, callers.length⟩] ∧
      World.GrowsBut n w u ∧ u.cell n = ⟨Capability.saving, state :: (w.cell n).states⟩ ∧
      a.Rests m₀ known u frames point state a₀.frame.stack.tail a₀ ∧ point.kind = .suspend := by
  cases h with
  | plain h =>
      rw [h] at ha
      cases ha
  | @resumable frames' c s l x _ _ carries position =>
      obtain rfl : frames' = frames :=
        Except.ok.inj (carries.resumes.analyze.symm.trans hp.analyze)
      obtain ⟨point, proceed, receiver, stack, hmem, hsite, hhere, hsuspend, hnew, hframe₀, hsaves,
        hroom⟩ := hp.exists_suspend
      rw [hframe₀]
      have hbound := carries.resumes.room
      obtain ⟨u, s', l', trail, last, executed', current, result, hadvances, hlast, hinside,
        hpushes, hgrows, hrecords⟩ := ContinuationPoint.advances_suspendBlock hm
          (carries.length ▸ carries.resumes.follows) (by rw [carries.length]; omega) carries.stands
          receiver hsaves hroom (fun b hb hknown => Nat.not_lt.2 hb (hbounded b hknown))
          (carries.resumes.hasAt_suspendBlock hp.get? hsite hsuspend) s l x callers executed
      rw [← Method.blockStart_succ_of_suspend hsite hsuspend hp.get?] at hinside
      have hpushed := (World.GrowsBut.pushed u n (Int32.ofNat point.id) s' l').trans
        (.modifyCell _ n fun cell => { cell with mode := Capability.saving })
      have hextends := hpushed.objects
      refine ⟨point, u.objects.size, _, trail, last, executed', current, result, ?advances, hlast,
        ?calm, hpushes, (hgrows.growsBut n).trans hpushed, ?cell,
        ⟨carries.owner, carries.at_ hloaded hmem ?position, carries.length, hhere, s', l',
          World.object?_pushed u n _ _ _, hrecords.spares (hextends.spares known)⟩, hsuspend⟩
      case advances =>
        have hframe' : a.frame = ⟨a₀.frame.locals ++ [c, s, l, x], receiver :: stack⟩ := by
          rw [carries.frame, ← hframe₀]
          rfl
        rw [← position, ← hframe', spot_self] at hadvances
        exact hadvances
      case calm =>
        exact fun v hv => calm_of_inside (hinside v hv) fun q f hspan =>
          carries.calm_suspending hp.get? hsite hsuspend f hspan
      case cell =>
        have hsame : u.cell n = w.cell n := World.cell_congr hgrows.capabilities n
        have hn' : n < u.capabilities.size := hgrows.capabilities ▸ hn
        have hsize := (World.GrowsBut.pushed u n (Int32.ofNat point.id) s' l').size
        rw [World.cell_modifyCell_self (hsize ▸ hn'), World.cell_pushed hn', hsame]
        rfl
      case position => rw [position, hhere, hnew]

end Activation

namespace CallState

variable {m m₀ : Machine} {n : Nat} {known known' : Nat → Prop} {w u : World} {owner : String}
  {callee : Method} {callers callers₀ : List Activation} {states : List Nat}

/-- True if the frames of the first activations, the innermost of which waits for the given method,
are in the states. -/
inductive Parked (m m₀ : Machine) (n : Nat) (known : Nat → Prop) (w : World) :
    String → Method → List Activation → List Activation → List Nat → Prop
  | nil (owner : String) (callee : Method) : Parked m m₀ n known w owner callee [] [] []
  | cons {owner : String} {callee : Method} {a a₀ : Activation} {callers callers₀ : List Activation}
      {state : Nat} {states : List Nat}
      (parks : a.Parks m m₀ n known w (callers.length + 1) owner callee state a₀)
      (rest : Parked m m₀ n known w a.owner a.method callers callers₀ states) :
      Parked m m₀ n known w owner callee (a :: callers) (a₀ :: callers₀) (state :: states)

theorem Parked.spares (h : Parked m m₀ n known w owner callee callers callers₀ states)
    (hw : World.Spares known known' w u) :
    Parked m m₀ n known' u owner callee callers callers₀ states := by
  induction h with
  | nil owner callee => exact .nil owner callee
  | cons parks _ ih => exact .cons (parks.spares hw) ih

/-- If a method leaves while states are being saved then the methods that wait for it push their
states and leave, one after the other. -/
theorem Stacked.unwinds (hm : m.Equipped)
    (h : Stacked m (· = n) known w owner callee callers callers₀)
    (hw : w.Extends u) (hloaded : ∀ a ∈ callers₀, a.Loaded m₀)
    (hcallee : callee.access.isInstrumented)
    (hcallers : ∀ a ∈ callers, a.method.access.isInstrumented)
    (saving : (u.cell n).mode = Capability.saving) (hn : n < u.capabilities.size)
    (current : Activation) (result : Option Value) (executed : Nat) :
    ∃ trail result' v states,
      m.Completes (CallState.leave ⟨u, executed, current, callers⟩ result) trail
        ⟨.ok result', v⟩ ∧
      (∀ s ∈ trail, s.current.Calm) ∧ pushes n trail = shifts callers states ∧
      World.GrowsBut n u v ∧
      v.cell n = ⟨Capability.saving, states.reverse ++ (u.cell n).states⟩ ∧
      Parked m m₀ n known v owner callee callers callers₀ states := by
  induction h generalizing u current result executed with
  | nil owner callee =>
      refine ⟨[], result, u, [], .over _, by simp, rfl, .refl n u, ?_, .nil _ _⟩
      rw [← saving]
      rfl
  | @cons owner callee a a₀ callers callers₀ blocked rest ih =>
      rw [List.forall_mem_cons] at hcallers hloaded
      obtain ⟨u₁, trail₁, last, executed₁, current₁, result₁, hadvances, hlast, hcalm₁, hpushes₁,
        hgrows₁, hcell₁, hparks⟩ := (blocked.spares (hw.spares known)).saves hm hloaded.1
          hcallee hcallers.1 saving hn result callers executed
      have saving₁ : (u₁.cell n).mode = Capability.saving := by
        rw [hcell₁]
        exact saving
      obtain ⟨trail₂, result₂, u₂, states, hcompletes, hcalm₂, hpushes₂, hgrows₂, hcell₂, hparked⟩ :=
        ih (hw.trans hgrows₁.objects) hloaded.2 hcallers.1 hcallers.2 saving₁ (hgrows₁.size ▸ hn)
          current₁ result₁ executed₁
      refine ⟨trail₁ ++ (last :: trail₂), result₂, u₂, u.objects.size :: states,
        hadvances.completes (.step (hlast ▸ hcompletes)), fun s hs => ?_, ?_,
        hgrows₁.trans hgrows₂, ?_, .cons (hparks.spares (hgrows₂.objects.spares known)) hparked⟩
      · rw [List.append_cons] at hs
        exact (List.mem_append.1 hs).elim (hcalm₁ s) (hcalm₂ s)
      · rw [List.append_cons, pushes_append, hpushes₁, hpushes₂]
        rfl
      · rw [hcell₂, hcell₁]
        simp [CapabilityCell.push]

/-- True if the frames of the active methods are in the states, once the running one has suspended
itself. -/
inductive Asleep (m m₀ : Machine) (n : Nat) (known : Nat → Prop) (w : World) (s t : CallState) :
    List Nat → Prop
  | intro {frames : Frames} {point : ContinuationPoint} {state : Nat} {states : List Nat}
      (rests : s.current.Rests m₀ known w frames point state t.current.frame.stack.tail t.current)
      (suspend : point.kind = .suspend)
      (parked : Parked m m₀ n known w s.current.owner s.current.method s.callers t.callers states) :
      Asleep m m₀ n known w s t (state :: states)

/-- A method that suspends itself pushes its state, sets the mode and leaves, and so do the methods
that wait for it. -/
theorem Mirrors.suspends (hm : m.Equipped) {s t : CallState} (h : s.Mirrors m (· = n) known t)
    (ht : t.Tame known) (hloaded : t.Loaded m₀) (hi : t.current.method.body.get? t.current.position =
      some (.invoke .virtual Capability.suspend))
    (hactive : ∀ a ∈ s.active, a.method.access.isInstrumented)
    (hn : n < s.world.capabilities.size) :
    ∃ trail result u states, m.Completes (.running s) trail ⟨.ok result, u⟩ ∧
      (∀ v ∈ trail, v.current.Calm) ∧ pushes n trail = shifts s.active states ∧
      World.GrowsBut n s.world u ∧
      u.cell n = ⟨Capability.saving, states.reverse ++ (s.world.cell n).states⟩ ∧
      s.Asleep m m₀ n known u t states := by
  obtain ⟨w, executed, a, callers⟩ := s
  obtain ⟨w₀, executed₀, a₀, callers₀⟩ := t
  obtain rfl : w = w₀ := h.world.symm
  obtain ⟨frames, g, i, g', hp⟩ := ht.typed.runs.poised ht.typed.world
  obtain rfl := Option.some.inj (hi.symm.trans hp.get?)
  simp only [Loaded, active, List.forall_mem_cons] at hactive hloaded
  obtain ⟨point, state, u₁, trail₁, last, executed₁, current, result₁, hadvances, hlast, hcalm₁,
    hpushes₁, hgrows₁, hcell₁, hrests, hsuspend⟩ :=
    h.current.suspends hm hp hloaded.1 hactive.1 hn (fun b hb => ht.tidy.closed.lt_size hb) callers
      executed
  have saving : (u₁.cell n).mode = Capability.saving := by rw [hcell₁]
  obtain ⟨trail₂, result₂, u₂, states, hcompletes, hcalm₂, hpushes₂, hgrows₂, hcell₂, hparked⟩ :=
    h.callers.unwinds hm hgrows₁.objects hloaded.2 hactive.1 hactive.2 saving
      (by rw [hgrows₁.size]; exact hn) current result₁ executed₁
  refine ⟨trail₁ ++ (last :: trail₂), result₂, u₂, state :: states,
    hadvances.completes (.step (hlast ▸ hcompletes)), fun v hv => ?_, ?_,
    hgrows₁.trans hgrows₂, ?_,
    .intro (hrests.spares (hgrows₂.objects.spares known)) hsuspend hparked⟩
  · rw [List.append_cons] at hv
    exact (List.mem_append.1 hv).elim (hcalm₁ v) (hcalm₂ v)
  · rw [List.append_cons, pushes_append, hpushes₁, hpushes₂]
    rfl
  · rw [hcell₂, hcell₁]
    simp

end CallState

end Resumable
