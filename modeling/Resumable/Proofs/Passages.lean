import Resumable.Proofs.Safety
import Resumable.Proofs.Weave

/-!
# Runs, and passages inside a method

A run goes on step by step.  `Machine.Advances` tells how one state comes from another, and from
which states the steps on the way are made.

A passage stays inside one method, at positions of some region.  Code that runs straight through can
be crossed wherever it stands.
-/

namespace Resumable

namespace Machine

/-- True if a run gets from one state to the other by steps from the states of the trail. -/
inductive Advances (m : Machine) : CallState → List CallState → CallState → Prop
  | refl (s : CallState) : Advances m s [] s
  | step {s t u : CallState} {trail : List CallState} (next : m.step s = .running t)
      (rest : Advances m t trail u) : Advances m s (s :: trail) u

variable {m : Machine} {s t u : CallState} {trail trail' : List CallState}

theorem Advances.trans (h : m.Advances s trail t) (k : m.Advances t trail' u) :
    m.Advances s (trail ++ trail') u := by
  induction h with
  | refl => exact k
  | step next _ ih => exact .step next (ih k)

theorem Advances.one (next : m.step s = .running t) : m.Advances s [s] t := .step next (.refl t)

/-- True if the machine doesn't count instructions, and has all natives of the library. -/
structure Equipped (m : Machine) : Prop where
  unlimited : m.limits.instructions = none
  library : ∀ method native, Library.natives.lookup method = some native →
    m.native? method = some native

/-- The activation at a position, with a frame. -/
def spot (a : Activation) (p : Nat) (f : ValueFrame) : Activation :=
  { a with position := p, frame := f }

/-- True if the method of the activation is running at a position of the region, and the callers
wait for it. -/
def Inside (a : Activation) (region : Nat → Prop) (callers : List Activation) (s : CallState) :
    Prop :=
  s.callers = callers ∧ ∃ p f, s.current = spot a p f ∧ region p

/-- True if a run gets from one spot in a method to another without leaving the region. -/
def Passes (m : Machine) (a : Activation) (region : Nat → Prop) (p : Nat) (x : ValueFrame × World)
    (q : Nat) (y : ValueFrame × World) : Prop :=
  ∀ callers executed, ∃ trail executed',
    m.Advances ⟨x.2, executed, spot a p x.1, callers⟩ trail ⟨y.2, executed', spot a q y.1, callers⟩ ∧
      ∀ s ∈ trail, Inside a region callers s

/-- The positions from one up to another one. -/
def Span (p q : Nat) : Nat → Prop := fun k => p ≤ k ∧ k < q

theorem Span.append_left {p k : Nat} {c c' : List Instruction} (h : Span p (p + c.length) k) :
    Span p (p + (c ++ c').length) k := by
  rw [List.length_append]
  exact ⟨h.1, Nat.lt_of_lt_of_le h.2 (by omega)⟩

theorem Span.append_right {p k : Nat} {c c' : List Instruction}
    (h : Span (p + c.length) (p + c.length + c'.length) k) : Span p (p + (c ++ c').length) k := by
  rw [List.length_append, ← Nat.add_assoc]
  exact ⟨Nat.le_trans (Nat.le_add_right _ _) h.1, h.2⟩

/-- True if a run gets through the code, wherever it stands. -/
def Crosses (m : Machine) (code : List Instruction) (x y : ValueFrame × World) : Prop :=
  ∀ a p, a.method.body.HasAt p code → m.Passes a (Span p (p + code.length)) p x (p + code.length) y

variable {a : Activation} {p q r : Nat} {x y z : ValueFrame × World} {i : Instruction}
  {code rest : List Instruction} {region region' : Nat → Prop}

theorem Inside.mono (h : ∀ k, region k → region' k) {callers : List Activation}
    (hs : Inside a region callers s) : Inside a region' callers s := by
  obtain ⟨hcallers, p, f, hcurrent, hp⟩ := hs
  exact ⟨hcallers, p, f, hcurrent, h p hp⟩

theorem Passes.refl (m : Machine) (a : Activation) (region : Nat → Prop) (p : Nat)
    (x : ValueFrame × World) : m.Passes a region p x p x :=
  fun _ executed => ⟨[], executed, .refl _, by simp⟩

theorem Passes.trans (h : m.Passes a region p x q y) (k : m.Passes a region q y r z) :
    m.Passes a region p x r z := by
  intro callers executed
  obtain ⟨trail, executed', h, hinside⟩ := h callers executed
  obtain ⟨trail', executed'', k, kinside⟩ := k callers executed'
  refine ⟨trail ++ trail', executed'', h.trans k, fun s hs => ?_⟩
  rcases List.mem_append.1 hs with hs | hs
  · exact hinside s hs
  · exact kinside s hs

theorem Passes.mono (h : m.Passes a region p x q y) (hregion : ∀ k, region k → region' k) :
    m.Passes a region' p x q y := by
  intro callers executed
  obtain ⟨trail, executed', h, hinside⟩ := h callers executed
  exact ⟨trail, executed', h, fun s hs => (hinside s hs).mono hregion⟩

/-- The next step executes the instruction at the position. -/
theorem step_eq_execute (hm : m.limits.instructions = none)
    (hi : s.current.method.body.get? s.current.position = some i) :
    m.step s = step.execute m s i := by
  simp only [step, hi, hm]

/-- A step that doesn't end the call has executed the instruction at the position. -/
theorem execute_of_step (h : m.step s = .running t) :
    ∃ i, s.current.method.body.get? s.current.position = some i ∧
      step.execute m s i = .running t := by
  cases hi : s.current.method.body.get? s.current.position with
  | none => simp only [step, hi, CallStatus.failed, reduceCtorEq] at h
  | some i =>
      refine ⟨i, rfl, ?_⟩
      simp only [step, hi] at h
      split at h
      · split at h
        · cases h
        · exact h
      · exact h

/-- A passage of one step. -/
theorem Passes.one (hp : region p) (next : ∀ callers executed, ∃ executed',
      m.step ⟨x.2, executed, spot a p x.1, callers⟩ =
        .running ⟨y.2, executed', spot a q y.1, callers⟩) : m.Passes a region p x q y := by
  intro callers executed
  obtain ⟨executed', next⟩ := next callers executed
  refine ⟨_, executed', .one next, fun s hs => ?_⟩
  obtain rfl := List.mem_singleton.1 hs
  exact ⟨rfl, p, x.1, rfl, hp⟩

/-- A passage over an instruction that leads on to the next one. -/
theorem Passes.proceed (hm : m.limits.instructions = none) (hi : a.method.body.get? p = some i)
    (hp : region p) (h : x.1.execute x.2 i = .ok (.proceed, y)) :
    m.Passes a region p x (p + 1) y := by
  refine .one hp fun callers executed => ⟨executed + 1, ?_⟩
  rw [step_eq_execute hm (i := i) hi]
  simp only [step.execute, spot, h, follow]

/-- A passage over a jump. -/
theorem Passes.jump {l : Label} (hm : m.limits.instructions = none)
    (hi : a.method.body.get? p = some i) (hp : region p)
    (h : x.1.execute x.2 i = .ok (.jump l, y)) (hl : a.method.body.position? l = some q) :
    m.Passes a region p x q y := by
  refine .one hp fun callers executed => ⟨executed + 1, ?_⟩
  rw [step_eq_execute hm (i := i) hi]
  simp only [step.execute, spot, h, follow, hl]

/-- The frame with what an invocation has returned. -/
def pushResult (f : ValueFrame) : Option Value → ValueFrame
  | some v => f.push v
  | none => f

/-- A step that invokes a native of the library. -/
theorem step_library {kind : InvokeKind} {method : MethodRef} {native : Native}
    {args : List Value} {f : ValueFrame} {result : Option Value} {w : World} (hm : m.Equipped)
    (hi : a.method.body.get? p = some (.invoke kind method))
    (h : x.1.execute x.2 (.invoke kind method) = .ok (.call kind method args, f, x.2))
    (hlookup : Library.natives.lookup method = some native)
    (hreceiver : (kind = .virtual && args.head?.all Value.isNull) = false)
    (hnative : native x.2 args = (.ok result, w)) (callers : List Activation) (executed : Nat) :
    m.step ⟨x.2, executed, spot a p x.1, callers⟩ =
      .running ⟨w, executed + 1, spot a (p + 1) (pushResult f result), callers⟩ := by
  rw [step_eq_execute hm.unlimited (i := .invoke kind method) hi]
  simp only [step.execute, spot, h, follow, invoke, hreceiver, Bool.false_eq_true, if_false,
    hm.library method native hlookup, hnative, CallState.resumed]
  cases result <;> rfl

/-- A passage over an invocation of a native of the library. -/
theorem Passes.library {kind : InvokeKind} {method : MethodRef} {native : Native}
    {args : List Value} {f : ValueFrame} {result : Option Value} {w : World} (hm : m.Equipped)
    (hi : a.method.body.get? p = some (.invoke kind method)) (hp : region p)
    (h : x.1.execute x.2 (.invoke kind method) = .ok (.call kind method args, f, x.2))
    (hlookup : Library.natives.lookup method = some native)
    (hreceiver : (kind = .virtual && args.head?.all Value.isNull) = false)
    (hnative : native x.2 args = (.ok result, w)) :
    m.Passes a region p x (p + 1) (pushResult f result, w) :=
  .one hp fun callers executed =>
    ⟨executed + 1, step_library hm hi h hlookup hreceiver hnative callers executed⟩

namespace Crosses

theorem nil (m : Machine) (x : ValueFrame × World) : m.Crosses [] x x :=
  fun a p _ => .refl m a _ p x

theorem append (h : m.Crosses code x y) (k : m.Crosses rest y z) :
    m.Crosses (code ++ rest) x z := by
  intro a p hat
  have hrest := (k a _ hat.right).mono fun _ hk => hk.append_right
  rw [Nat.add_assoc, ← List.length_append] at hrest
  exact ((h a p hat.left).mono fun _ hk => hk.append_left).trans hrest

theorem cons (h : m.Crosses [i] x y) (k : m.Crosses rest y z) : m.Crosses (i :: rest) x z := by
  rw [← List.singleton_append]
  exact h.append k

/-- Crossing one instruction. -/
theorem single (hm : m.limits.instructions = none) (h : x.1.execute x.2 i = .ok (.proceed, y)) :
    m.Crosses [i] x y :=
  fun _ p hat => .proceed hm hat.head ⟨Nat.le_refl p, Nat.lt_succ_self p⟩ h

variable {locals stack : List Value} {w : World} {v : Value} {index : UInt16} {kind : ValueKind}

theorem load (hm : m.limits.instructions = none) (hv : locals[index.toNat]? = some v) :
    m.Crosses [.load kind index] (⟨locals, stack⟩, w) (⟨locals, v :: stack⟩, w) := by
  refine single hm ?_
  simp only [ValueFrame.execute, ValueFrame.load, hv]
  rfl

theorem store (hm : m.limits.instructions = none) (hindex : index.toNat < locals.length) :
    m.Crosses [.store kind index] (⟨locals, v :: stack⟩, w)
      (⟨locals.set index.toNat v, stack⟩, w) := by
  refine single hm ?_
  simp only [ValueFrame.execute, ValueFrame.pop, ValueFrame.store, Except.ok_bind, hindex, if_true]
  rfl

theorem pop (hm : m.limits.instructions = none) :
    m.Crosses [.pop] (⟨locals, v :: stack⟩, w) (⟨locals, stack⟩, w) := single hm rfl

theorem const (hm : m.limits.instructions = none) (constant : Constant) :
    m.Crosses [.const constant] (⟨locals, stack⟩, w)
      (⟨locals, (w.constant constant).1 :: stack⟩, (w.constant constant).2) := single hm rfl

/-- Crossing a mark. -/
theorem label (hm : m.limits.instructions = none) (l : Label) (x : ValueFrame × World) :
    m.Crosses [.label l] x x := single hm rfl

/-- Crossing an invocation of a native of the library. -/
theorem library {kind : InvokeKind} {method : MethodRef} {operation : World → List Value → Library.Outcome}
    {result : Option Value} {u : World} (args : List Value) (hm : m.Equipped)
    (hlength : args.length = (argumentTypes method kind).length)
    (hlookup : Library.natives.lookup method = some (Library.native operation))
    (hreceiver : (kind = .virtual && args.head?.all Value.isNull) = false)
    (hoperation : operation w args = .ok (result, u)) :
    m.Crosses [.invoke kind method] (⟨locals, args.reverse ++ stack⟩, w)
      (pushResult ⟨locals, stack⟩ result, u) := by
  intro a p hat
  have hexecute : ValueFrame.execute w ⟨locals, args.reverse ++ stack⟩ (.invoke kind method) =
      .ok (.call kind method args.reverse.reverse, ⟨locals, stack⟩, w) :=
    ValueFrame.execute_invoke (by simpa using hlength)
  rw [List.reverse_reverse] at hexecute
  refine Passes.library hm hat.head ⟨Nat.le_refl p, Nat.lt_succ_self p⟩ hexecute hlookup hreceiver ?_
  simp only [Library.native, hoperation]

end Crosses

end Machine

end Resumable
