import Resumable.Proofs.FrameExtension
import Resumable.Proofs.KnownObjects
import Resumable.Proofs.Originals
import Resumable.Proofs.PointRuns
import Resumable.Proofs.Poised

/-!
# Resumable methods next to the methods that they were made from

While nothing is suspended, a call on a machine with resumable methods goes on as the same call on
the machine with the original methods does.  `CallState.Mirrors` says how their states belong
together: they have the same world, the resumable methods are at the blocks of the instructions of
the original ones, and their frames have four more slots.

Methods that wait for one that may suspend have recorded their frames in arrays.
-/

namespace Resumable

open Machine

/-- The local slot that the capability is in when a method starts. -/
def Method.capabilitySlot (d : Method) : Nat := if d.isStatic then 0 else 1

namespace ValueFrame

theorem pushResult_extend (f : ValueFrame) (slots : List Value) (result : Option Value) :
    pushResult (f.extend slots) result = (pushResult f result).extend slots := by
  cases result <;> rfl

theorem locals_pushResult (f : ValueFrame) (result : Option Value) :
    (pushResult f result).locals = f.locals := by
  cases result <;> rfl

end ValueFrame

namespace Activation

variable {known known' : Nat → Prop} {w u : World} {a a₀ : Activation} {frames : Frames}

namespace Poised

variable {g g' : Frame} {i : Instruction} (h : a.Poised known w frames g i g')

include h

theorem meets : a.frame.Meets w g := by
  refine ⟨List.forall₂_iff_get.2 ⟨h.conforms.stack.length_eq, fun n h₁ h₂ => ?_⟩,
    h.conforms.locals.imp fun v t hvt => ?_⟩
  · have hne := h.wellFormed.known _ (List.get_mem g.stack ⟨n, h₂⟩)
    exact ⟨hne, ((List.forall₂_iff_get.1 h.conforms.stack).2 n h₁ h₂ hne).1⟩
  · cases t with
    | top => trivial
    | _ => exact (hvt (by simp)).1

/-- A stack is no longer than the room for it. -/
theorem length_stack : g.stack.length < 2147483648 := by
  have hle : ∀ stack : List FrameValue, stack.length ≤ Frame.stackSlots ⟨g.locals, stack⟩ := by
    intro stack
    induction stack with
    | nil => exact Nat.le_refl 0
    | cons v stack ih =>
        rw [Frame.stackSlots_cons, List.length_cons, Nat.add_comm]
        refine Nat.add_le_add ?_ ih
        simp only [FrameValue.slots]
        split <;> omega
  have hroom := h.analyzed.room _ g h.frame
  have hmax := a.method.maxStack.toNat_lt
  have := hle g.stack
  have hg : g.stackSlots = Frame.stackSlots ⟨g.locals, g.stack⟩ := rfl
  omega

end Poised

/-- True if the first activation is of the resumable form of the second one's method, and has the
given values in its additional slots. -/
structure Carries (cells : Nat → Prop) (w : World) (frames : Frames) (c s l x : Value)
    (a a₀ : Activation) : Prop where
  owner : a.owner = a₀.owner
  resumes : a₀.method.Resumes a₀.owner frames a.method
  frame : a.frame = a₀.frame.extend [c, s, l, x]
  length : a₀.frame.locals.length = a₀.method.maxLocals.toNat
  capability : ∃ n, cells n ∧ w.Stands n c

/-- True if the first activation is the second one, or is at the block of its instruction. -/
inductive Begins (cells : Nat → Prop) (w : World) : Activation → Activation → Prop
  | plain {a : Activation} (h : a.method.access.isInstrumented = false) : Begins cells w a a
  | resumable {frames : Frames} {c s l x : Value} {a a₀ : Activation}
      (carries : Carries cells w frames c s l x a a₀)
      (position : a.position = a₀.method.blockStart frames a₀.position) : Begins cells w a a₀

/-- True if the first activation is the second one, or is at its instruction.  If that calls a
method that may suspend then the frame has been recorded. -/
inductive Faces (cells known : Nat → Prop) (w : World) : Activation → Activation → Prop
  | plain {a : Activation} (h : a.method.access.isInstrumented = false) : Faces cells known w a a
  | resumable {frames : Frames} {c s l x : Value} {a a₀ : Activation}
      (carries : Carries cells w frames c s l x a a₀)
      (position : a.position = a₀.method.newPosition frames a₀.position)
      (records : ∀ point proceed, a₀.method.site? frames a₀.position = some (point, proceed) →
        point.kind = .save ∧ w.Records known point.frame a₀.frame s l) : Faces cells known w a a₀

theorem Carries.proceeds {cells : Nat → Prop} {c s l x : Value}
    (h : a.Carries cells w frames c s l x a₀) (hw : w.Proceeds u) :
    a.Carries cells u frames c s l x a₀ := by
  obtain ⟨n, hn, hc⟩ := h.capability
  exact ⟨h.owner, h.resumes, h.frame, h.length, n, hn, hc.proceeds hw⟩

end Activation

/-- True if an invocation gets to the method, and hands over a capability if the method is
resumable, whatever happens to the world.  The arguments leave room for the slots that a resumable
method has for itself. -/
structure Machine.Reenters (m : Machine) (cells : Nat → Prop) (w : World) (depth : Nat)
    (kind : InvokeKind) (method : MethodRef) (args : List Value) (owner : String)
    (callee : Method) : Prop where
  owner : owner = method.owner
  invoke : ∀ w, m.invoke depth w kind method args =
    .entered ⟨method.owner, callee, 0, .entry args callee.maxLocals.toNat⟩
  capability : callee.access.isInstrumented → ∃ n c, cells n ∧ w.Stands n c ∧
    (ValueFrame.entry args callee.maxLocals.toNat).locals[callee.capabilitySlot]? = some c
  room : callee.access.isInstrumented →
    (ValueFrame.entry args 0).locals.length + 4 ≤ callee.maxLocals.toNat

/-- True if the first activation is the second one, or waits at the same invocation for the method.
If that may suspend then the frame has been recorded. -/
inductive Activation.Blocked (m : Machine) (cells known : Nat → Prop) (w : World) (depth : Nat)
    (owner : String) (callee : Method) : Activation → Activation → Prop
  | plain {a : Activation} (h : a.method.access.isInstrumented = false) :
      Blocked m cells known w depth owner callee a a
  | resumable {frames : Frames} {c s l x : Value} {kind : InvokeKind} {method : MethodRef}
      {a a₀ : Activation} (carries : a.Carries cells w frames c s l x a₀)
      (position : a.position = a₀.method.newPosition frames a₀.position)
      (call : a₀.method.body.get? a₀.position = some (.invoke kind method))
      (sited : callee.access.isInstrumented → (a₀.method.site? frames a₀.position).isSome)
      (records : ∀ point proceed, a₀.method.site? frames a₀.position = some (point, proceed) →
        point.kind = .save ∧ ∃ args, args.length = (argumentTypes method kind).length ∧
          w.Records known point.frame ⟨a₀.frame.locals, args.reverse ++ a₀.frame.stack⟩ s l ∧
          m.Reenters cells w depth kind method args owner callee) :
      Blocked m cells known w depth owner callee a a₀

namespace CallState

/-- True if the methods that wait belong together, the innermost of which wait for the given one. -/
inductive Stacked (m : Machine) (cells known : Nat → Prop) (w : World) :
    String → Method → List Activation → List Activation → Prop
  | nil (owner : String) (callee : Method) : Stacked m cells known w owner callee [] []
  | cons {owner : String} {callee : Method} {a a₀ : Activation} {callers callers₀ : List Activation}
      (blocked : a.Blocked m cells known w (callers.length + 1) owner callee a₀)
      (rest : Stacked m cells known w a.owner a.method callers callers₀) :
      Stacked m cells known w owner callee (a :: callers) (a₀ :: callers₀)

/-- True if the first state, in which capabilities with the given numbers are in use, is that of a
call with resumable methods, and the second one that of the same call with the original methods. -/
structure Mirrors (m : Machine) (cells known : Nat → Prop) (s t : CallState) : Prop where
  world : t.world = s.world
  current : s.current.Begins cells s.world t.current
  callers : Stacked m cells known s.world s.current.owner s.current.method s.callers t.callers
  normal : ∀ n, cells n → (s.world.cell n).mode = Capability.normal

/-- The same, with the running method at its instruction. -/
structure Faces (m : Machine) (cells known : Nat → Prop) (s t : CallState) : Prop where
  world : t.world = s.world
  current : s.current.Faces cells known s.world t.current
  callers : Stacked m cells known s.world s.current.owner s.current.method s.callers t.callers
  normal : ∀ n, cells n → (s.world.cell n).mode = Capability.normal

end CallState

namespace Activation

variable {m : Machine} {cells known known' : Nat → Prop} {w u : World} {a a₀ : Activation}
  {frames : Frames} {g g' : Frame} {i : Instruction} {c s l x : Value}

theorem spot_self (a : Activation) : spot a a.position a.frame = a := rfl

/-- A state on the way through code that has been added. -/
theorem calm_of_inside {region : Nat → Prop} {callers : List Activation}
    {s : CallState} (h : Inside a region callers s)
    (hregion : ∀ p f, region p → (spot a p f).Calm) : s.current.Calm := by
  obtain ⟨-, p, f, hcurrent, hp⟩ := h
  exact hcurrent ▸ hregion p f hp

/-- Execution gets from a block to its instruction, and the frame has been recorded then if the
instruction calls a method that may suspend. -/
theorem Begins.faces (hm : m.Equipped) (h : a.Begins cells w a₀)
    (hp : a₀.Poised known' w frames g i g') (hbounded : ∀ b, known b → b < w.objects.size)
    (hi : a.method.access.isInstrumented → i.isSuspend = false) (callers : List Activation)
    (executed : Nat) :
    ∃ trail executed' u a₁, m.Advances ⟨w, executed, a, callers⟩ trail ⟨u, executed', a₁, callers⟩ ∧
      (∀ s ∈ trail, s.current.Calm) ∧ w.Grows u ∧ a₁.Faces cells known u a₀ ∧
      a₁.owner = a.owner ∧ a₁.method = a.method := by
  cases h with
  | plain h => exact ⟨[], executed, w, a, .refl _, by simp, .refl w, .plain h, rfl, rfl⟩
  | @resumable frames' c s l x _ _ carries position =>
      obtain ⟨owner, resumes, frame, length, capability⟩ := id carries
      obtain rfl : frames' = frames := Except.ok.inj (resumes.analyze.symm.trans hp.analyze)
      cases hsite : a₀.method.site? frames' a₀.position with
      | none =>
          refine ⟨[], executed, w, a, .refl _, by simp, .refl w, .resumable carries ?_ ?_, rfl, rfl⟩
          · simp [position, Method.newPosition, Method.before, hsite]
          · intro point proceed h
            rw [hsite] at h
            cases h
      | some site =>
          obtain ⟨point, proceed⟩ := site
          obtain ⟨hpoint, hposition, hframe, -, hkind⟩ := Method.of_site? hsite hp.frame hp.get?
          have hsave : point.kind = .save := by
            cases hk : point.kind with
            | save => rfl
            | suspend =>
                rw [hk, hi resumes.marked] at hkind
                cases hkind
          have hat := resumes.hasAt_saveBlock hp.get? hsite hsave
          have hfollows := length ▸ resumes.follows
          have hroom := resumes.room
          obtain ⟨u, s', l', x', hcross, hgrows, hrecords⟩ :=
            @ContinuationPoint.crosses_saveBlock m _ _ known w a₀.frame.locals a₀.frame.stack c
              point hm hfollows (by omega)
              (hframe ▸ hp.length_stack) (hframe ▸ hp.meets)
              (fun b hb hknown => Nat.not_lt.2 hb (hbounded b hknown)) s l x
          obtain ⟨trail, executed', hadvances, hinside⟩ := hcross a _ hat callers executed
          have hnew := Method.newPosition_of_save hsite hsave
          have hnext := Method.blockStart_succ_of_save hsite hsave hp.get?
          have hcalm (s : CallState) (hs : s ∈ trail) : s.current.Calm :=
            calm_of_inside (hinside s hs) fun p f hspan => calm_block
              (a := Machine.spot a p f) (owner ▸ resumes) hspan.1
              (by have := hspan.2; dsimp only [Machine.spot]; omega)
              (fun _ => by have := hspan.2; dsimp only [Machine.spot]; omega) hat
              (Method.callsOnly_saveBlock _ _) hspan.1 hspan.2
          refine ⟨trail, executed', u, _, ?_, hcalm, hgrows, .resumable
            (a := spot a (a₀.method.blockStart frames' a₀.position +
              (point.saveBlock a₀.method.slotTable).length) (a₀.frame.extend [c, s', l', x']))
            ⟨owner, resumes, rfl, length, ?_⟩ ?_ ?_, rfl, rfl⟩
          · rw [← position] at hadvances ⊢
            have hframe' : a.frame = ⟨a₀.frame.locals ++ [c, s, l, x], a₀.frame.stack⟩ := frame
            rw [← hframe', spot_self] at hadvances
            exact hadvances
          · obtain ⟨n, hn, hc⟩ := capability
            exact ⟨n, hn, hc.proceeds hgrows.proceeds⟩
          · exact hnew.symm
          · intro point' proceed' h
            obtain ⟨rfl, rfl⟩ : point = point' ∧ proceed = proceed' := by
              simpa using Option.some.inj (hsite.symm.trans h)
            exact ⟨hsave, hrecords⟩

theorem resumed_eq (a : Activation) (result : Option Value) :
    CallState.resumed a result = spot a (a.position + 1) (pushResult a.frame result) := by
  cases result <;> rfl

/-- An instruction that stays is where it should be. -/
theorem Faces.get? (h : a.Faces cells known w a₀) (hp : a₀.Poised known' w frames g i g') :
    a.method.body.get? a.position = some i := by
  cases h with
  | plain => exact hp.get?
  | resumable carries position records =>
      rw [position, carries.resumes.body]
      refine Method.get?_newPosition hp.get? fun point proceed hsite hsuspend => ?_
      obtain ⟨hsave, -⟩ := records point proceed hsite
      rw [hsave] at hsuspend
      cases hsuspend

/-- Going on elsewhere in the method. -/
theorem Carries.spot (h : a.Carries cells w frames c s l x a₀) {f : ValueFrame}
    (hf : f.locals.length = a₀.method.maxLocals.toNat) (p q : Nat) :
    Carries cells w frames c s l x (Machine.spot a p (f.extend [c, s, l, x])) (Machine.spot a₀ q f) :=
  ⟨h.owner, h.resumes, rfl, hf, h.capability⟩

/-- After a call, execution gets to the next block, unless states are being saved. -/
theorem Carries.passes_after (hm : m.Equipped) (h : a.Carries cells w frames c s l x a₀)
    {kind : InvokeKind} {method : MethodRef} {p : Nat}
    (call : a₀.method.body.get? p = some (.invoke kind method))
    (hsave : ∀ point proceed, a₀.method.site? frames p = some (point, proceed) →
      point.kind = .save) (normal : ∀ n, cells n → (w.cell n).mode = Capability.normal)
    {own : List Value} (hown : own.length = a₀.method.maxLocals.toNat) (stack : List Value) :
    m.Passes a (Span (a₀.method.newPosition frames p + 1) (a₀.method.blockStart frames (p + 1)))
      (a₀.method.newPosition frames p + 1) (⟨own ++ [c, s, l, x], stack⟩, w)
      (a₀.method.blockStart frames (p + 1)) (⟨own ++ [c, s, l, x], stack⟩, w) := by
  cases hsite : a₀.method.site? frames p with
  | none =>
      have hnext := @Method.blockStart_succ _ frames _ _ call
      have hposition : a₀.method.newPosition frames p + 1 = a₀.method.blockStart frames (p + 1) := by
        rw [hnext]
        simp [Method.newPosition, Method.before, Method.block, hsite]
      rw [hposition]
      exact .refl m a _ _ _
  | some site =>
      obtain ⟨point, proceed⟩ := site
      have hkind := hsave point proceed hsite
      have hat := h.resumes.hasAt_afterSave call hsite hkind
      obtain ⟨n, hn, hc⟩ := h.capability
      have hmode : (w.cell n).mode ≠ Capability.saving := by
        rw [normal n hn]
        decide
      have hafter := @ContinuationPoint.passes_afterSave m _ _ w own stack c s l x n point hm
        (hown ▸ h.resumes.follows) hc hmode proceed a _ hat h.resumes.nodup
      rwa [← Method.blockStart_succ_of_save hsite hkind call] at hafter

/-- The code after a call has been added. -/
theorem Carries.calm_after (h : a.Carries cells w frames c s l x a₀) {kind : InvokeKind}
    {method : MethodRef} {p q : Nat} (call : a₀.method.body.get? p = some (.invoke kind method))
    (hsave : ∀ point proceed, a₀.method.site? frames p = some (point, proceed) →
      point.kind = .save) (f : ValueFrame)
    (hspan : Span (a₀.method.newPosition frames p + 1) (a₀.method.blockStart frames (p + 1)) q) :
    (Machine.spot a q f).Calm := by
  have hresumes := h.owner ▸ h.resumes
  obtain ⟨hq, hq'⟩ := hspan
  cases hsite : a₀.method.site? frames p with
  | none =>
      have hnext := @Method.blockStart_succ _ frames _ _ call
      simp only [Method.newPosition, Method.before, Method.block, hsite, List.length_nil,
        List.length_cons] at hnext hq
      omega
  | some site =>
      obtain ⟨point, proceed⟩ := site
      have hkind := hsave point proceed hsite
      have hnew := Method.newPosition_of_save hsite hkind
      have hnext := Method.blockStart_succ_of_save hsite hkind call
      refine calm_block (a := Machine.spot a q f) hresumes (p := p) ?_ hq' (fun _ => ?_)
        (h.resumes.hasAt_afterSave call hsite hkind) (Method.callsOnly_afterSave _ _ _) ?_ ?_ <;>
          dsimp only [Machine.spot] <;> omega

end Activation

namespace Method.Woven

open Snapshot World

variable {m : Machine} {owner : String} {frames : Frames} {d d' : Method} {a : Activation}
  {w : World} {own stack : List Value} {c s l x y : Value} {n q : Nat}

theorem toNat_param (d : Method) : d.slotTable.param.toNat = d.capabilitySlot := by
  have hstatic : d.isStatic = d.access.isStatic := rfl
  cases h : d.access.isStatic <;> simp [slotTable, SlotTable.make, capabilitySlot, hstatic, h]

/-- Jumping to one of the labels of a table. -/
theorem execute_tableSwitch (locals stack : List Value) (w : World) (k : Int32) (otherwise : Label)
    (targets : List Label) :
    ValueFrame.execute w ⟨locals, .int k :: stack⟩ (.tableSwitch 0 otherwise targets) =
      .ok (.jump (tableTarget 0 k otherwise targets), ⟨locals, stack⟩, w) := by
  simp only [ValueFrame.execute, ValueFrame.branch, ValueFrame.popInt_cons, Except.ok_bind]
  rfl

/-- The new code looks at the capability's mode first, and goes on accordingly. -/
theorem passes_dispatch (h : d.Woven owner frames d') (ha : a.method = d') (hm : m.Equipped)
    (hown : own.length = d.maxLocals.toNat) (hparam : own[d.capabilitySlot]? = some c)
    (hc : w.Stands n c)
    (hq : d'.body.position? (tableTarget 0 (w.cell n).mode (d.prologueLabels frames).badMode
      [(d.prologueLabels frames).start, (d.prologueLabels frames).saving,
        (d.prologueLabels frames).loading]) = some q) :
    m.Passes a (Span 0 (d.dispatch.length + 1)) 0 (⟨own ++ [y, s, l, x], []⟩, w) q
      (⟨own ++ [c, s, l, x], []⟩, w) := by
  subst ha
  have ht : d.slotTable.Follows a.method own.length := hown ▸ h.follows
  have hat := h.hasAt_prologue
  rw [prologue_eq] at hat
  have hload : m.Crosses [loadReference d.slotTable.param] (⟨own ++ [y, s, l, x], []⟩, w)
      (⟨own ++ [y, s, l, x], [c]⟩, w) := by
    refine .load hm.unlimited ?_
    rw [toNat_param, List.getElem?_append_left (List.getElem?_eq_some_iff.1 hparam).1, hparam]
  have hstore : m.Crosses [storeReference d.slotTable.capability] (⟨own ++ [y, s, l, x], [c]⟩, w)
      (⟨own ++ [c, s, l, x], []⟩, w) :=
    crosses_storeSlot (k := 0) hm ht.capability (by simp)
  have hmode : m.Crosses (getMode d.slotTable) (⟨own ++ [c, s, l, x], []⟩, w)
      (⟨own ++ [c, s, l, x], [.int (w.cell n).mode]⟩, w) := crosses_getMode hm ht hc
  have hcross := hload.cons (hstore.cons hmode)
  have hdispatch := hcross a 0 hat.left
  have hlength : 0 + ([loadReference d.slotTable.param, storeReference d.slotTable.capability] ++
      getMode d.slotTable).length = d.dispatch.length := by
    rw [Nat.zero_add]
    rfl
  simp only [List.cons_append, List.nil_append] at hlength
  rw [hlength] at hdispatch
  have hswitch := hat.right.head
  rw [Nat.zero_add] at hswitch
  refine (hdispatch.mono fun k hk => ⟨hk.1, by have := hk.2; omega⟩).trans ?_
  exact .jump hm.unlimited hswitch ⟨Nat.zero_le _, Nat.lt_succ_self _⟩
    (execute_tableSwitch _ _ w _ _ _) hq

/-- In normal mode it goes on to the method's first instruction, past the code for loading. -/
theorem passes_start (h : d.Woven owner frames d') (ha : a.method = d') (hm : m.Equipped)
    (hown : own.length = d.maxLocals.toNat) (hparam : own[d.capabilitySlot]? = some c)
    (hc : w.Stands n c) (normal : (w.cell n).mode = Capability.normal) :
    m.Passes a (fun k => k ≤ d.dispatch.length ∨ k + 1 = d.blockStart frames 0) 0
      (⟨own ++ [y, s, l, x], []⟩, w) (d.blockStart frames 0) (⟨own ++ [c, s, l, x], []⟩, w) := by
  subst ha
  have hat := h.hasAt_prologue
  rw [prologue_eq] at hat
  have hlabel := hat.right.tail.right.tail.right.right
  have htarget : tableTarget 0 (w.cell n).mode (d.prologueLabels frames).badMode
      [(d.prologueLabels frames).start, (d.prologueLabels frames).saving,
        (d.prologueLabels frames).loading] = (d.prologueLabels frames).start := by
    rw [normal]
    rfl
  have hdispatch := h.passes_dispatch (s := s) (l := l) (x := x) (y := y) rfl hm hown hparam hc
    (htarget ▸ Body.position?_of_get? h.nodup hlabel.head)
  have hplaced := (Crosses.label hm.unlimited (d.prologueLabels frames).start
    (⟨own ++ [c, s, l, x], []⟩, w)) a _ hlabel
  have hstart : d.blockStart frames 0 = _ := (blockStart_zero d frames).trans
    (congrArg List.length (prologue_eq d frames))
  simp only [List.length_append, List.length_cons, List.length_nil] at hstart hplaced
  have hend : 0 + d.dispatch.length + 1 + (d.pointDispatch frames).length + 1 +
      (d.loadBlocks frames).length + (d.faults frames).length + (0 + 1) =
        d.blockStart frames 0 := by omega
  rw [hend] at hplaced
  refine (hdispatch.mono fun k hk => .inl (Nat.le_of_lt_succ hk.2)).trans
    (hplaced.mono fun k hk => .inr ?_)
  have := hk.1
  have := hk.2
  omega

/-- The code that's passed then takes no state. -/
theorem calm_start (h : d.Resumes a.owner frames a.method)
    (hp : a.position ≤ d.dispatch.length ∨ a.position + 1 = d.blockStart frames 0) : a.Calm := by
  have hlength := congrArg List.length (prologue_eq d frames)
  have hpoint : (d.pointDispatch frames).length = 12 := rfl
  simp only [List.length_append, List.length_cons, List.length_nil, hpoint] at hlength
  rw [blockStart_zero] at hp
  exact Activation.calm_prologue h (by omega) (by omega)

end Method.Woven

end Resumable
