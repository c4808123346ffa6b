import Resumable.Proofs.Descriptors
import Resumable.Proofs.Limits
import Resumable.Proofs.StackDepth
import Resumable.Proofs.Starts

/-!
# How resumable methods start

A resumable method looks at its capability before anything else.  In normal mode it goes on to its
own code with the frame that the original method starts with.  In loading mode it takes the last
state that was pushed.  A mode that it doesn't start in, a missing state or a state of a point that
it doesn't have makes the call fail before any of its own code is executed.
-/

namespace Resumable

/-- A switch gets to the other label unless the value is one of its table's indexes. -/
theorem tableTarget_of_outside {value : Int32} {otherwise : Label} {targets : List Label}
    (h : ¬ (0 ≤ value.toInt ∧ value.toInt < targets.length)) :
    tableTarget 0 value otherwise targets = otherwise := by
  have hzero : value.toInt - (0 : Int32).toInt = value.toInt := by
    rw [show (0 : Int32).toInt = 0 from rfl, Int.sub_zero]
  simp only [tableTarget, hzero]
  by_cases hneg : value.toInt < 0
  · rw [if_pos hneg]
  · have hlength : targets.length ≤ value.toInt.toNat := by omega
    rw [if_neg hneg, List.getD_eq_getElem?_getD, List.getElem?_eq_none hlength, Option.getD_none]

namespace Machine

open Snapshot

variable {m : Machine} {a : Activation} {region : Nat → Prop} {p q : Nat} {x : ValueFrame × World}
  {w : World} {locals stack : List Value} {callers : List Activation} {executed : Nat}

/-- A passage to an instruction that fails ends the call. -/
theorem Passes.completes_failed {y : ValueFrame × World} {u : World} {e : MachineError}
    (h : m.Passes a region p x q y) (hq : region q) (hstep : ∀ executed,
      m.step ⟨y.2, executed, spot a q y.1, callers⟩ = .failed e (spot a q y.1 :: callers) u) :
    ∃ trail trace, m.Completes (.running ⟨x.2, executed, spot a p x.1, callers⟩) trail
        ⟨.error ⟨e, trace⟩, u⟩ ∧ ∀ s ∈ trail, Inside a region callers s := by
  obtain ⟨trail, executed', hadvances, hinside⟩ := h callers executed
  refine ⟨trail ++ [_], _, hadvances.completes (.last (hstep executed')), fun s hs => ?_⟩
  rcases List.mem_append.1 hs with hs | hs
  · exact hinside s hs
  · obtain rfl := List.mem_singleton.1 hs
    exact ⟨rfl, q, y.1, rfl, hq⟩

/-- Code that throws a text ends the call. -/
theorem Passes.completes_fail (hm : m.limits.instructions = none)
    (h : m.Passes a region p x q (⟨locals, stack⟩, w)) {l : Label} {message : String}
    (hat : a.method.body.HasAt q (.label l :: fail message))
    (hregion : ∀ k, q ≤ k → k < q + 3 → region k) :
    ∃ trail trace, m.Completes (.running ⟨x.2, executed, spot a p x.1, callers⟩) trail
        ⟨.error ⟨.thrown (.object w.objects.size), trace⟩, (w.allocate (.string message)).2⟩ ∧
      ∀ s ∈ trail, Inside a region callers s := by
  have hcross : m.Crosses [.label l, .const (.string message)] (⟨locals, stack⟩, w)
      (⟨locals, .object w.objects.size :: stack⟩, (w.allocate (.string message)).2) :=
    (Crosses.label hm l _).cons (Crosses.const hm _)
  have hcode : a.method.body.HasAt q ([.label l, .const (.string message)] ++ [.throw]) := hat
  have hpasses := h.trans ((hcross a q hcode.left).mono fun k hk =>
    hregion k hk.1 (Nat.lt_trans hk.2 (by simp)))
  refine hpasses.completes_failed (hregion _ (by simp) (by simp)) fun executed => ?_
  rw [step_eq_execute hm (i := .throw) hcode.right.head]
  rfl

end Machine

/-- The labels that a prologue goes on to, by mode. -/
def Method.modeLabels (d : Method) (frames : Frames) : List Label :=
  [(d.prologueLabels frames).start, (d.prologueLabels frames).saving,
    (d.prologueLabels frames).loading]

namespace Method.Woven

open Snapshot Machine World

variable {m : Machine} {owner : String} {frames : Frames} {d d' : Method} {a : Activation}
  {w : World} {own : List Value} {c s l x y : Value} {n q executed : Nat}
  {callers : List Activation}

/-- The code for faults is part of the prologue. -/
theorem hasAt_faults (h : d.Woven owner frames d') :
    ∃ q, q + 9 < (d.prologue frames).length ∧ d'.body.HasAt q (d.faults frames) := by
  have hat := h.hasAt_prologue
  have hlength := congrArg List.length (prologue_eq d frames)
  rw [prologue_eq] at hat
  have hfaults : (d.faults frames).length = 9 := rfl
  simp only [List.length_append, List.length_cons, List.length_nil, hfaults] at hlength
  exact ⟨_, by omega, hat.right.tail.right.tail.right.left⟩

/-- A call in a mode that gets to a fault fails. -/
theorem completes_fault (h : d.Woven owner frames d') (ha : a.method = d') (hm : m.Equipped)
    (hown : own.length = d.maxLocals.toNat) (hparam : own[d.capabilitySlot]? = some c)
    (hc : w.Stands n c) {fault : Label} {message : String}
    (htarget : tableTarget 0 (w.cell n).mode (d.prologueLabels frames).badMode
      (d.modeLabels frames) = fault)
    (hat : d'.body.HasAt q (.label fault :: fail message))
    (hq : q + 3 ≤ (d.prologue frames).length) :
    ∃ trail trace, m.Completes
        (.running ⟨w, executed, spot a 0 ⟨own ++ [y, s, l, x], []⟩, callers⟩) trail
        ⟨.error ⟨.thrown (.object w.objects.size), trace⟩, (w.allocate (.string message)).2⟩ ∧
      ∀ s ∈ trail, Inside a (Span 0 (d.prologue frames).length) callers s := by
  subst ha htarget
  have hlength := congrArg List.length (prologue_eq d frames)
  simp only [List.length_append, List.length_cons] at hlength
  have hpasses : m.Passes a (Span 0 (d.prologue frames).length) 0 (⟨own ++ [y, s, l, x], []⟩, w) q
      (⟨own ++ [c, s, l, x], []⟩, w) :=
    (h.passes_dispatch rfl hm hown hparam hc (Body.position?_of_get? h.nodup hat.head)).mono
      fun k hk => ⟨hk.1, by have := hk.2; omega⟩
  exact hpasses.completes_fail hm.unlimited hat fun k _ hk => ⟨Nat.zero_le k, by omega⟩

/-- In loading mode the prologue goes on to the states. -/
theorem passes_loading (h : d.Woven owner frames d') (ha : a.method = d') (hm : m.Equipped)
    (hown : own.length = d.maxLocals.toNat) (hparam : own[d.capabilitySlot]? = some c)
    (hc : w.Stands n c) (loading : (w.cell n).mode = Capability.loading) :
    m.Passes a (Span 0 (d.dispatch.length + 2)) 0 (⟨own ++ [y, s, l, x], []⟩, w)
      (d.dispatch.length + 2) (⟨own ++ [c, s, l, x], []⟩, w) := by
  subst ha
  have hat := h.hasAt_prologue
  rw [prologue_eq] at hat
  have hpointDispatch := hat.right.tail.left
  rw [Nat.zero_add] at hpointDispatch
  have htarget : tableTarget 0 (w.cell n).mode (d.prologueLabels frames).badMode
      [(d.prologueLabels frames).start, (d.prologueLabels frames).saving,
        (d.prologueLabels frames).loading] = (d.prologueLabels frames).loading := by
    rw [loading]
    rfl
  have hdispatch := h.passes_dispatch (s := s) (l := l) (x := x) (y := y) rfl hm hown hparam hc
    (htarget ▸ Body.position?_of_get? h.nodup hpointDispatch.head)
  have hlabel : a.method.body.HasAt (d.dispatch.length + 1)
      ([.label (d.prologueLabels frames).loading] ++ (d.pointDispatch frames).tail) := hpointDispatch
  refine (hdispatch.mono fun k hk => ⟨hk.1, by have := hk.2; omega⟩).trans ?_
  exact (Crosses.label hm.unlimited _ _ a _ hlabel.left).mono fun k hk => ⟨Nat.zero_le k, hk.2⟩

/-- In loading mode a call without a state fails. -/
theorem completes_empty (h : d.Woven owner frames d') (ha : a.method = d') (hm : m.Equipped)
    (hown : own.length = d.maxLocals.toNat) (hparam : own[d.capabilitySlot]? = some c)
    (hc : w.Stands n c) (loading : (w.cell n).mode = Capability.loading)
    (hstates : (w.cell n).states = []) :
    ∃ trail trace, m.Completes
        (.running ⟨w, executed, spot a 0 ⟨own ++ [y, s, l, x], []⟩, callers⟩) trail
        ⟨.error ⟨.emptyStateStack, trace⟩, w⟩ ∧
      ∀ s ∈ trail, Inside a (Span 0 (d.prologue frames).length) callers s := by
  subst ha
  have ht : d.slotTable.Follows a.method own.length := hown ▸ h.follows
  have hlength := congrArg List.length (prologue_eq d frames)
  have hpoint : (d.pointDispatch frames).length = 12 := rfl
  simp only [List.length_append, List.length_cons, hpoint] at hlength
  obtain ⟨rest, hcode⟩ : ∃ rest, a.method.body.HasAt (d.dispatch.length + 2)
      ([loadReference d.slotTable.capability] ++
        ([.invoke .virtual Capability.popState] ++ rest)) := by
    have hat := h.hasAt_prologue
    rw [prologue_eq] at hat
    have htail := hat.right.tail.left.tail
    rw [Nat.zero_add] at htail
    exact ⟨_, htail⟩
  have hload : m.Passes a (Span 0 (d.prologue frames).length) (d.dispatch.length + 2)
      (⟨own ++ [c, s, l, x], []⟩, w) (d.dispatch.length + 3) (⟨own ++ [c, s, l, x], [c]⟩, w) :=
    (crosses_loadCapability hm ht a _ hcode.left).mono fun k hk => ⟨Nat.zero_le k, by
      have := hk.2
      simp only [List.length_singleton] at this
      omega⟩
  have hloading := (h.passes_loading (y := y) (s := s) (l := l) (x := x) rfl hm hown hparam hc
    loading).mono fun k hk =>
      show Span 0 (d.prologue frames).length k from ⟨hk.1, by have := hk.2; omega⟩
  have hpasses := hloading.trans hload
  refine hpasses.completes_failed ⟨Nat.zero_le _, by omega⟩ fun executed => ?_
  have hinvoke := hcode.right.left.head
  have hpop : Library.popState w [c] = .error .emptyStateStack := by
    simp only [Library.popState, capability_of_stands hc, Except.ok_bind, CapabilityCell.pop?,
      hstates]
    rfl
  have hexecute : ValueFrame.execute w ⟨own ++ [c, s, l, x], [c]⟩
      (.invoke .virtual Capability.popState) =
        .ok (.call .virtual Capability.popState [c], ⟨own ++ [c, s, l, x], []⟩, w) := rfl
  rw [step_eq_execute hm.unlimited (i := .invoke .virtual Capability.popState) hinvoke]
  simp only [step.execute, spot, hexecute, follow, invoke, List.head?_cons, Option.all_some,
    not_isNull_of_stands hc, hm.library _ _ lookup_popState, Library.native, hpop]
  rfl

/-- In loading mode a call with a state of a point that doesn't exist fails, once it has popped that
state. -/
theorem completes_unknownPoint (h : d.Woven owner frames d') (ha : a.method = d') (hm : m.Equipped)
    (hown : own.length = d.maxLocals.toNat) (hparam : own[d.capabilitySlot]? = some c)
    (hc : w.Stands n c) (loading : (w.cell n).mode = Capability.loading)
    {state : Nat} {rest : List Nat} {point : Int32} {stackArray localsArray : Value}
    (hstates : (w.cell n).states = state :: rest)
    (hstate : w.object? state = some (.state point stackArray localsArray))
    (hpoint : ¬ (0 ≤ point.toInt ∧ point.toInt < (d.points frames).length)) :
    ∃ trail trace, m.Completes
        (.running ⟨w, executed, spot a 0 ⟨own ++ [y, s, l, x], []⟩, callers⟩) trail
        ⟨.error ⟨.thrown (.object w.objects.size), trace⟩,
          ((w.popped n).allocate (.string "unrecognized continuation point id")).2⟩ ∧
      ∀ s ∈ trail, Inside a (Span 0 (d.prologue frames).length) callers s := by
  subst ha
  have ht : d.slotTable.Follows a.method own.length := hown ▸ h.follows
  have hlength := congrArg List.length (prologue_eq d frames)
  have hpointDispatch : (d.pointDispatch frames).length = 12 := rfl
  simp only [List.length_append, List.length_cons, hpointDispatch] at hlength
  have hat := h.hasAt_prologue
  rw [prologue_eq] at hat
  have hcode := hat.right.tail
  rw [Nat.zero_add] at hcode
  have htake : m.Crosses (popState d.slotTable ++
      [loadReference d.slotTable.scratch, .invoke .virtual Capability.getPoint])
      (⟨own ++ [c, s, l, x], []⟩, w)
      (⟨own ++ [c, stackArray, localsArray, .object state], [.int point]⟩, w.popped n) :=
    (crosses_popState hm ht hc hstates hstate).append (crosses_getPoint hm ht hstate)
  have htaken : m.Passes a (Span 0 (d.prologue frames).length) (d.dispatch.length + 2)
      (⟨own ++ [c, s, l, x], []⟩, w) (d.dispatch.length + 13)
      (⟨own ++ [c, stackArray, localsArray, .object state], [.int point]⟩, w.popped n) :=
    (htake a _ hcode.left.tail).mono fun k hk => ⟨Nat.zero_le k, by
      have := hk.2
      have : (popState d.slotTable ++ [loadReference d.slotTable.scratch,
        .invoke .virtual Capability.getPoint]).length = 11 := rfl
      omega⟩
  obtain ⟨q, hq, hfaults⟩ := h.hasAt_faults
  have hskipped : ((d.faults frames).take 6).length = 6 := rfl
  have hfault := hfaults.right (c := (d.faults frames).take 6)
  have htarget : tableTarget 0 point (d.prologueLabels frames).badPoint
      (d.prologueLabels frames).points = (d.prologueLabels frames).badPoint :=
    tableTarget_of_outside (by rwa [length_prologueLabels])
  have hjump : m.Passes a (Span 0 (d.prologue frames).length) (d.dispatch.length + 13)
      (⟨own ++ [c, stackArray, localsArray, .object state], [.int point]⟩, w.popped n) (q + 6)
      (⟨own ++ [c, stackArray, localsArray, .object state], []⟩, w.popped n) :=
    .jump hm.unlimited hcode.right.head ⟨Nat.zero_le _, by omega⟩
      (execute_tableSwitch _ _ (w.popped n) _ _ _)
      (by rw [htarget]; exact Body.position?_of_get? h.nodup hfault.head)
  have hloading := (h.passes_loading (y := y) (s := s) (l := l) (x := x) rfl hm hown hparam hc
    loading).mono fun k hk =>
      show Span 0 (d.prologue frames).length k from ⟨hk.1, by have := hk.2; omega⟩
  have hpasses := (hloading.trans htaken).trans hjump
  exact hpasses.completes_fail hm.unlimited hfault fun k _ hk => ⟨Nat.zero_le k, by omega⟩

end Method.Woven

namespace Machine

/-- How a call of a method's resumable form starts, depending on the capability with the given
number that it's handed.  The call has just entered the method with the given activation. -/
structure Dispatches (m : Machine) (d : Method) (frames : Frames) (a : Activation) (w : World)
    (n : Nat) (args : List Value) (c : Value) : Prop where
  /-- In normal mode the call gets to the method's own code, with the frame that the original method
  starts with and the capability in a slot after its locals. -/
  normal : (w.cell n).mode = Capability.normal → ∃ trail executed,
    m.Proceeds ⟨w, 0, a, []⟩ trail ⟨w, executed, spot a (d.prologue frames).length
      ((ValueFrame.entry args d.maxLocals.toNat).extend [c, .null, .null, .null]), []⟩ ∧
    ∀ s ∈ trail, Inside a (Span 0 (d.prologue frames).length) [] s
  /-- In modes other than the normal one and the one for loading it throws a text. -/
  fault : (w.cell n).mode ≠ Capability.normal → (w.cell n).mode ≠ Capability.loading →
    ∃ trail trace message,
      m.Concludes (.running ⟨w, 0, a, []⟩) trail
        ⟨.error ⟨.thrown (.object w.objects.size), trace⟩, (w.allocate (.string message)).2⟩ ∧
      ∀ s ∈ trail, Inside a (Span 0 (d.prologue frames).length) [] s
  /-- There must be a state to load. -/
  empty : (w.cell n).mode = Capability.loading → (w.cell n).states = [] →
    ∃ trail trace,
      m.Concludes (.running ⟨w, 0, a, []⟩) trail ⟨.error ⟨.emptyStateStack, trace⟩, w⟩ ∧
      ∀ s ∈ trail, Inside a (Span 0 (d.prologue frames).length) [] s
  /-- A state of a point that the method doesn't have is popped, and a text is thrown. -/
  unknownPoint : (w.cell n).mode = Capability.loading → ∀ state rest point stackArray localsArray,
    (w.cell n).states = state :: rest →
    w.object? state = some (.state point stackArray localsArray) →
    ¬ (0 ≤ point.toInt ∧ point.toInt < (d.points frames).length) →
    ∃ trail trace message,
      m.Concludes (.running ⟨w, 0, a, []⟩) trail
        ⟨.error ⟨.thrown (.object w.objects.size), trace⟩,
          ((w.popped n).allocate (.string message)).2⟩ ∧
      ∀ s ∈ trail, Inside a (Span 0 (d.prologue frames).length) [] s

end Machine

namespace Method

open Machine

variable {owner : String} {d t : Method}

/-- The frame in which a transformed method starts has four more locals than that of the original
one. -/
theorem Woven.entry_eq {frames : Frames} (h : d.Woven owner frames t) {method : MethodRef}
    {kind : InvokeKind} {w : World} {args : List Value} (howner : method.owner = owner)
    (htype : method.type = t.type) (hkind : d.isStatic ↔ kind = .static)
    (hargs : List.Forall₂ (fun v t => w.isInstance v t) args (argumentTypes method kind)) :
    (ValueFrame.entry args d.maxLocals.toNat).locals.length = d.maxLocals.toNat ∧
      ValueFrame.entry args t.maxLocals.toNat = ⟨(ValueFrame.entry args d.maxLocals.toNat).locals ++
        [.null, .null, .null, .null], []⟩ := by
  have hknown : List.Forall₂ (fun v t => w.isInstance v t ∧ v.Known fun _ => True) args
      (argumentTypes method kind) :=
    hargs.imp fun v t hv => ⟨hv, by cases v <;> trivial⟩
  have hanalyzed := analyzed_of_analyze h.analyze
  obtain ⟨entry, hentry, -⟩ := hanalyzed.entry
  subst howner
  have hconforms := conforms_entry hknown (htype.trans h.type).symm hkind hentry
  have hlength : (ValueFrame.entry args d.maxLocals.toNat).locals.length = d.maxLocals.toNat := by
    rw [hconforms.locals.length_eq]
    exact (wellFormed_of_entryFrame hentry).1.localsLength
  refine ⟨hlength, ?_⟩
  rw [h.maxLocals, ValueFrame.entry_add hlength 4]
  rfl

/-- Modes other than those that a prologue knows are outside its table. -/
theorem mode_outside {mode : Int32} (hnormal : mode ≠ Capability.normal)
    (hloading : mode ≠ Capability.loading) (hsaving : mode ≠ Capability.saving) :
    ¬ (0 ≤ mode.toInt ∧ mode.toInt < 3) := by
  have hne {other : Int32} (h : mode ≠ other) : mode.toInt ≠ other.toInt :=
    fun heq => h (Int32.toInt_inj.1 heq)
  have h₀ : mode.toInt ≠ 0 := hne hnormal
  have h₁ : mode.toInt ≠ 1 := hne hsaving
  have h₂ : mode.toInt ≠ 2 := hne hloading
  omega

/-- What a prologue does about each mode and each stack of states. -/
theorem Woven.dispatches {frames : Frames} {t : Method} (h : d.Woven owner frames t) {m : Machine}
    (hm : m.unlimited.Equipped) {w : World} {args : List Value} {n : Nat} {c : Value}
    (hown : (ValueFrame.entry args d.maxLocals.toNat).locals.length = d.maxLocals.toNat)
    (hentry : ValueFrame.entry args t.maxLocals.toNat =
      ⟨(ValueFrame.entry args d.maxLocals.toNat).locals ++ [.null, .null, .null, .null], []⟩)
    (hparam : (ValueFrame.entry args d.maxLocals.toNat).locals[d.capabilitySlot]? = some c)
    (hc : w.Stands n c) :
    m.Dispatches d frames ⟨owner, t, 0, .entry args t.maxLocals.toNat⟩ w n args c := by
  obtain ⟨q, hq, hfaults⟩ := h.hasAt_faults
  have hskipped : ((d.faults frames).take 3).length = 3 := rfl
  have hsaving := hfaults.right (c := (d.faults frames).take 3)
  rw [hskipped] at hsaving
  rw [hentry]
  generalize ha : Activation.mk owner t 0 ⟨_, _⟩ = a
  have hmethod : a.method = t := ha ▸ rfl
  have hspot : spot a 0 ⟨(ValueFrame.entry args d.maxLocals.toNat).locals ++
      [.null, .null, .null, .null], []⟩ = a := ha ▸ rfl
  refine ⟨fun normal => ?_, fun hnormal hloading => ?_, fun loading hstates => ?_,
    fun loading state rest point stackArray localsArray hstates hstate hpoint => ?_⟩
  · have hlength := congrArg List.length (prologue_eq d frames)
    simp only [List.length_append, List.length_cons] at hlength
    obtain ⟨trail, executed, hadvances, hinside⟩ :=
      ((h.passes_start hmethod hm hown hparam hc normal).mono fun k hk =>
        show Span 0 (d.blockStart frames 0) k from ⟨Nat.zero_le k, by
          rw [blockStart_zero] at hk ⊢
          omega⟩) [] 0
    rw [hspot] at hadvances
    rw [blockStart_zero] at hadvances hinside
    exact ⟨trail, executed, hadvances.proceeds rfl, hinside⟩
  · by_cases hmode : (w.cell n).mode = Capability.saving
    · have htarget : tableTarget 0 (w.cell n).mode (d.prologueLabels frames).badMode
          (d.modeLabels frames) = (d.prologueLabels frames).saving := by
        rw [hmode]
        rfl
      have hroom : q + 3 + 3 ≤ (d.prologue frames).length := by omega
      obtain ⟨trail, trace, hcompletes, hinside⟩ :=
        h.completes_fault hmethod hm hown hparam hc htarget hsaving.left hroom
      rw [hspot] at hcompletes
      exact ⟨trail, trace, _, hcompletes.concludes rfl, hinside⟩
    · have htarget : tableTarget 0 (w.cell n).mode (d.prologueLabels frames).badMode
          (d.modeLabels frames) = (d.prologueLabels frames).badMode :=
        tableTarget_of_outside (mode_outside hnormal hloading hmode)
      have hroom : q + 3 ≤ (d.prologue frames).length := by omega
      obtain ⟨trail, trace, hcompletes, hinside⟩ :=
        h.completes_fault hmethod hm hown hparam hc htarget hfaults.left.left hroom
      rw [hspot] at hcompletes
      exact ⟨trail, trace, _, hcompletes.concludes rfl, hinside⟩
  · obtain ⟨trail, trace, hcompletes, hinside⟩ :=
      h.completes_empty hmethod hm hown hparam hc loading hstates
    rw [hspot] at hcompletes
    exact ⟨trail, trace, hcompletes.concludes rfl, hinside⟩
  · obtain ⟨trail, trace, hcompletes, hinside⟩ :=
      h.completes_unknownPoint hmethod hm hown hparam hc loading hstates hstate hpoint
    rw [hspot] at hcompletes
    exact ⟨trail, trace, _, hcompletes.concludes rfl, hinside⟩

/-- A transformed method that a machine has loaded starts by looking at the capability that it's
handed, whatever the capability's mode and states are. -/
theorem transform_dispatches (h : d.transform owner = .ok t) {m : Machine} {descriptor : String}
    (library : ∀ method native, Library.natives.lookup method = some native →
      m.native? method = some native)
    (parse : MethodType.parse descriptor = .ok t.type)
    (loaded : m.method? ⟨owner, t.name, t.type⟩ = some t)
    (unshadowed : m.native? ⟨owner, t.name, t.type⟩ = none) (hasBody : t.hasBody)
    (depth : 0 < m.limits.callDepth) {w : World} {args : List Value}
    (accepted : checkArguments w ⟨owner, t.name, t.type⟩ (startKind t) args = .ok ())
    (receiver : startKind t = .virtual → args.head?.all Value.isNull = false) {n : Nat} {c : Value}
    (capability : capabilityArgument? (startKind t) args = some c) (stands : w.Stands n c) :
    ∃ frames a, d.analyze owner = .ok frames ∧
      m.start w owner t.name descriptor args = .running ⟨w, 0, a, []⟩ ∧
      m.Dispatches d frames a w n args c := by
  have hstatic : t.access.isStatic = d.access.isStatic := by
    obtain ⟨frames, -, -, hrecompute⟩ := transform_eq_ok h
    obtain ⟨frames', -, rfl⟩ := recompute_eq_ok hrecompute
    rfl
  obtain ⟨frames, hwoven⟩ : ∃ frames, d.Woven owner frames t := woven_of_transform h hstatic
  have hkind : d.isStatic ↔ startKind t = .static := by
    rw [← hwoven.isStatic]
    exact startKind_eq_static
  have hargs := checkArguments_eq_ok.1 accepted
  obtain ⟨hown, hentry⟩ := hwoven.entry_eq rfl rfl hkind hargs
  have hstart : m.start w owner t.name descriptor args =
      .running ⟨w, 0, ⟨owner, t, 0, .entry args t.maxLocals.toNat⟩, []⟩ := by
    have hreceiver : (startKind t = .virtual && args.head?.all Value.isNull) = false := by
      by_cases hvirtual : startKind t = .virtual
      · simp [hvirtual, receiver hvirtual]
      · simp [hvirtual]
    have hdepth : ¬ m.limits.callDepth ≤ 0 := by omega
    have hinvoked : t.isStatic ↔ startKind t = .static := startKind_eq_static
    simp only [start_eq parse loaded, accepted, invoke, hreceiver, Bool.false_eq_true, if_false,
      unshadowed, loaded, hasBody, not_true_eq_false, ne_eq, hinvoked, hdepth]
  exact ⟨frames, _, hwoven.analyze, hstart, hwoven.dispatches ⟨rfl, library⟩ hown hentry
    (ValueFrame.capability_entry hkind hargs capability _) stands⟩

/-- Takes a receiver and a capability, and returns. -/
def greeter (access : AccessFlags) : Method where
  name := "greet"
  type := ⟨[Capability.type], none⟩
  access := access
  maxStack := 0
  maxLocals := 2
  body := .ofList [.leave none]
  stackMap := []

def greeterFrames : Frames :=
  [some ⟨[.reference (.object "Demo"), .reference Capability.type], []⟩]

theorem analyze_greeter {access : AccessFlags} (h : access.isStatic = false) :
    (greeter access).analyze "Demo" = .ok greeterFrames := by
  have hstatic : (greeter access).isStatic = false := h
  have hlabels : (greeter access).body.labelPositions = .ok [] := rfl
  have hentry : (greeter access).entryFrame "Demo" =
      .ok ⟨[.reference (.object "Demo"), .reference Capability.type], []⟩ := by
    simp only [entryFrame, entryLocals, hstatic]
    rfl
  have hlength : ¬ (greeter access).body.length = 0 := by
    simp [greeter, Body.ofList, Body.length]
  simp only [analyze, hlabels, hentry, hlength, if_false]
  rw [Progress.run_of_follow rfl (t := ⟨greeterFrames, []⟩) rfl]
  rw [Progress.run]

/-- The greeter can be transformed, and what it becomes has its name, type and flags. -/
theorem transform_greeter {access : AccessFlags} (h : access = .visible ∨ access = .abstract) :
    ∃ t, (greeter access).transform "Demo" = .ok t ∧ t.name = "greet" ∧
      t.type = ⟨[Capability.type], none⟩ ∧ t.access = access := by
  have hstatic : access.isStatic = false := by rcases h with rfl | rfl <;> rfl
  have hlength : 2 * ((greeter access).weave greeterFrames).body.length ≤ maxSlots := by
    rw [length_weave (by simp [greeter, Body.ofList, Body.length])]
    rcases h with rfl | rfl <;> decide
  have enough : (greeter access).body.nextLabel.toNat +
      (greeter access).freshLabelCount greeterFrames ≤ 4294967295 := by
    rcases h with rfl | rfl <;> decide
  have supported : ∀ i ∈ (greeter access).body.instructions, i.isUnsupported = false := by
    intro i hi
    simp only [greeter, Body.ofList, List.mem_singleton] at hi
    rw [hi]
    rfl
  have counter : ∀ l, .label l ∈ (greeter access).body.instructions →
      l.number < (greeter access).body.nextLabel := by
    simp [greeter, Body.ofList]
  have room : (greeter access).maxLocals.toNat + SlotTable.extraSlots ≤ maxSlots := by
    simp only [greeter]
    decide
  obtain ⟨t, frames, ht, -, -⟩ := transform_of_length rfl supported (analyze_greeter hstatic) room
    counter enough hlength
  obtain ⟨frames, hframes, -, hrecompute⟩ := transform_eq_ok ht
  obtain ⟨frames', -, rfl⟩ := recompute_eq_ok hrecompute
  exact ⟨_, ht, rfl, rfl, rfl⟩

/-- A machine that has loaded one method, of the unit with the name `Demo`. -/
def inDemo (t : Method) : Machine := ⟨.standard, [⟨"Demo", .none, [t]⟩], Library.natives⟩

theorem method?_inDemo (t : Method) : t.inDemo.method? ⟨"Demo", t.name, t.type⟩ = some t := by
  simp [inDemo, Machine.method?, Machine.unit?, CompiledUnit.method?]

def greetRef : MethodRef := ⟨"Demo", "greet", ⟨[Capability.type], none⟩⟩

theorem parse_greet : MethodType.parse "(Lcoil/Continuation;)V" = .ok greetRef.type := by
  rw [MethodType.parse_eq_ok]
  refine ⟨⟨?_, ?_⟩, by decide⟩
  · intro p hp
    obtain rfl := List.mem_singleton.1 hp
    simp [Capability.type, Capability.typeName, ValueType.HasPlainNames]
  · intro r hr
    cases hr

/-- A capability in normal mode at the first address, and an instance of `Demo` at the
second one. -/
def demoWorld : World := ⟨#[.capability 0, .plain "Demo"], #[.initial], []⟩

/-- The transformed greeter starts with its own code in normal mode. -/
theorem transform_dispatches_greeter : ∃ t frames a,
    (greeter .visible).transform "Demo" = .ok t ∧
      t.inDemo.start demoWorld "Demo" t.name "(Lcoil/Continuation;)V" [.object 1, .object 0] =
        .running ⟨demoWorld, 0, a, []⟩ ∧
      t.inDemo.Dispatches (greeter .visible) frames a demoWorld 0 [.object 1, .object 0]
        (.object 0) := by
  obtain ⟨t, ht, hname, htype, haccess⟩ := transform_greeter (.inl rfl)
  have hkind : startKind t = .virtual := by
    simp only [startKind, isStatic, haccess]
    rfl
  have hbody : t.hasBody := by
    simp only [hasBody, haccess]
    rfl
  have hparse : MethodType.parse "(Lcoil/Continuation;)V" = .ok t.type := htype ▸ parse_greet
  have hnative : t.inDemo.native? ⟨"Demo", t.name, t.type⟩ = none := by
    rw [hname, htype]
    rfl
  have haccepted : checkArguments demoWorld ⟨"Demo", t.name, t.type⟩ (startKind t)
      [.object 1, .object 0] = .ok () := by
    rw [hname, htype, hkind]
    rfl
  have hstands : demoWorld.Stands 0 (.object 0) := ⟨0, rfl, rfl⟩
  have hcapability : capabilityArgument? (startKind t) [.object 1, .object 0] =
      some (.object 0) := by
    rw [hkind]
    rfl
  have hdepth : 0 < t.inDemo.limits.callDepth := Nat.zero_lt_succ _
  obtain ⟨frames, a, -, hstart, hdispatches⟩ := transform_dispatches (m := t.inDemo) ht
    (fun _ _ h => h) hparse (method?_inDemo t) hnative hbody hdepth haccepted (fun _ => rfl)
    hcapability hstands
  exact ⟨t, frames, a, ht, hstart, hdispatches⟩

/-- How a call of a greeter starts on a machine that has loaded it. -/
theorem start_greet {m : Machine} {t : Method} (hunits : m.units = t.inDemo.units)
    (hname : t.name = "greet") (htype : t.type = greetRef.type) (hkind : startKind t = .virtual)
    {args : List Value} (accepted : checkArguments demoWorld greetRef .virtual args = .ok ()) :
    m.start demoWorld "Demo" "greet" "(Lcoil/Continuation;)V" args =
      match m.invoke 0 demoWorld .virtual greetRef args with
      | .failed cause w => .failed cause [] w
      | .returned result w => .over ⟨.ok result, w⟩
      | .entered a => .running ⟨demoWorld, 0, a, []⟩ := by
  have hloaded : m.method? ⟨"Demo", "greet", greetRef.type⟩ = some t := by
    rw [← hname, ← htype, ← method?_inDemo t, Machine.method?, Machine.unit?, hunits]
    rfl
  have haccepted : checkArguments demoWorld ⟨"Demo", "greet", greetRef.type⟩ (startKind t) args =
      .ok () := by
    rw [hkind]
    exact accepted
  rw [start_eq parse_greet hloaded, haccepted, hkind]
  rfl

/-- Without a receiver, with a native in its place or when it's flagged as abstract, a transformed
method isn't entered at all, though the arguments are accepted and the capability is in normal mode.
-/
theorem greeter_not_entered : ∃ t t',
    (greeter .visible).transform "Demo" = .ok t ∧ (greeter .abstract).transform "Demo" = .ok t' ∧
      (demoWorld.cell 0).mode = Capability.normal ∧ demoWorld.Stands 0 (.object 0) ∧
      checkArguments demoWorld greetRef .virtual [.null, .object 0] = .ok () ∧
      checkArguments demoWorld greetRef .virtual [.object 1, .object 0] = .ok () ∧
      t.inDemo.start demoWorld "Demo" "greet" "(Lcoil/Continuation;)V" [.null, .object 0] =
        .failed .nullReference [] demoWorld ∧
      (t.inDemo.register greetRef fun w _ => (.ok none, w)).start demoWorld "Demo" "greet"
        "(Lcoil/Continuation;)V" [.object 1, .object 0] = .over ⟨.ok none, demoWorld⟩ ∧
      t'.inDemo.start demoWorld "Demo" "greet" "(Lcoil/Continuation;)V" [.object 1, .object 0] =
        .failed (.unknownMethod greetRef) [] demoWorld := by
  obtain ⟨t, ht, hname, htype, haccess⟩ := transform_greeter (.inl rfl)
  obtain ⟨t', ht', hname', htype', haccess'⟩ := transform_greeter (.inr rfl)
  have hkind : startKind t = .virtual := by
    simp only [startKind, isStatic, haccess]
    rfl
  have hkind' : startKind t' = .virtual := by
    simp only [startKind, isStatic, haccess']
    rfl
  have hbody : t'.hasBody = false := by
    simp only [hasBody, haccess']
    rfl
  have hloaded : t'.inDemo.method? greetRef = some t' := by
    rw [greetRef, ← hname', ← htype']
    exact method?_inDemo t'
  have hnull : checkArguments demoWorld greetRef .virtual [.null, .object 0] = .ok () := rfl
  have haccepted : checkArguments demoWorld greetRef .virtual [.object 1, .object 0] = .ok () := rfl
  refine ⟨t, t', ht, ht', rfl, ⟨0, rfl, rfl⟩, hnull, haccepted, ?_, ?_, ?_⟩
  · rw [start_greet rfl hname htype hkind hnull]
    rfl
  · have hunits : (t.inDemo.register greetRef fun w _ => (.ok none, w)).units = t.inDemo.units := rfl
    rw [start_greet hunits hname htype hkind haccepted]
    rfl
  · have hinvoke : t'.inDemo.invoke 0 demoWorld .virtual greetRef [.object 1, .object 0] =
        .failed (.unknownMethod greetRef) demoWorld := by
      have hnative : t'.inDemo.native? greetRef = none := rfl
      have hreceiver : (Value.object 1).isNull = false := rfl
      simp [invoke, hnative, hloaded, hbody, hreceiver]
    rw [start_greet rfl hname' htype' hkind' haccepted, hinvoke]

end Method

end Resumable
