import Resumable.Proofs.CapabilityRuns

/-!
# Running the code of points

The code of a point saves a frame and leaves it as it was, or saves it and leaves the method, or
gets it back.  What's saved are the values of the frame as the analysis describes it.  Locals of
which the analysis knows nothing aren't saved, and so they may differ when the frame is back.
-/

namespace Resumable

/-- True if all values of a frame are what the analyzed frame says. -/
structure ValueFrame.Meets (w : World) (f : ValueFrame) (g : Frame) : Prop where
  stack : List.Forall₂ (fun v t => t ≠ .top ∧ w.Has v t) f.stack g.stack
  locals : List.Forall₂ w.Has f.locals g.locals

theorem ValueFrame.Meets.evolves {w u : World} {f : ValueFrame} {g : Frame} (h : f.Meets w g)
    (hw : w.Evolves u) : f.Meets u g :=
  ⟨h.stack.imp fun _ _ h => ⟨h.1, h.2.evolves hw⟩, h.locals.imp fun _ _ h => h.evolves hw⟩

/-- What is known of a local of a frame. -/
theorem ValueFrame.Meets.local {w : World} {f : ValueFrame} {g : Frame} (h : f.Meets w g) (k : Nat)
    (t : FrameValue) (ht : g.locals[k]? = some t) : ∃ v, f.locals[k]? = some v ∧ w.Has v t :=
  getElem?_of_forall₂ h.locals ht

/-- True if two arrays of which nothing else knows hold what the analysis knows of a frame. -/
structure World.Records (known : Nat → Prop) (w : World) (g : Frame) (f : ValueFrame)
    (stackArray localsArray : Value) : Prop where
  meets : f.Meets w g
  stack : ∃ a, stackArray = .object a ∧ w.Saved known g.stack.reverse f.stack.reverse a
  locals : ∃ a, localsArray = .object a ∧ w.Saved known g.locals f.locals a

namespace World.Records

variable {known known' : Nat → Prop} {w u : World} {g : Frame} {f : ValueFrame} {s l : Value}

theorem spares (h : w.Records known g f s l) (hw : World.Spares known known' w u) :
    u.Records known' g f s l := by
  obtain ⟨a, rfl, ha⟩ := h.stack
  obtain ⟨b, rfl, hb⟩ := h.locals
  exact ⟨h.meets.evolves hw.proceeds.evolves, ⟨a, rfl, ha.spares hw⟩, ⟨b, rfl, hb.spares hw⟩⟩

/-- What the arrays hold doesn't depend on locals of which the analysis knows nothing. -/
theorem congr (h : w.Records known g f s l) {own : List Value}
    (hlength : own.length = f.locals.length)
    (hown : ∀ (k : Nat) (type : FrameValue), g.locals[k]? = some type → type ≠ .top →
      own[k]? = f.locals[k]?) : w.Records known g ⟨own, f.stack⟩ s l := by
  obtain ⟨⟨hstack, hlocals⟩, hstackArray, b, rfl, hunknown, cells, ho, hsize, hroom, hholds⟩ := h
  refine ⟨⟨hstack, List.forall₂_iff_get.2 ⟨hlength.trans hlocals.length_eq, fun k h₁ h₂ => ?_⟩⟩,
    hstackArray, b, rfl, hunknown, cells, ho, hsize, hroom, fun k type htype htop hnull => ?_,
    hholds.absent⟩
  · have hhas := (List.forall₂_iff_get.1 hlocals).2 k (hlength ▸ h₁) h₂
    generalize htype : g.locals.get ⟨k, h₂⟩ = type at hhas
    cases type with
    | top => trivial
    | _ =>
        have hsame := hown k _ ((List.getElem?_eq_getElem h₂).trans (congrArg some htype)) (by simp)
        rw [List.getElem?_eq_getElem h₁, List.getElem?_eq_getElem (hlength ▸ h₁)] at hsame
        simp only [List.get_eq_getElem] at hhas ⊢
        rwa [Option.some.inj hsame]
  · rw [hown k type htype htop]
    exact hholds.stored k type htype htop hnull

end World.Records

namespace World

variable {w u : World}

/-- Changes of capabilities alone. -/
theorem proceeds_modifyCell (w : World) (n : Nat) (f : CapabilityCell → CapabilityCell) :
    w.Proceeds (w.modifyCell n f) := fun _ o ho => ⟨o, ho, .same o⟩

theorem spares_modifyCell (known : Nat → Prop) (w : World) (n : Nat)
    (f : CapabilityCell → CapabilityCell) : Spares known known w (w.modifyCell n f) :=
  ⟨fun _ ha => .inl ha, fun _ _ _ ho => ho, proceeds_modifyCell w n f⟩

theorem spares_popped (known : Nat → Prop) (w : World) (n : Nat) :
    Spares known known w (w.popped n) := spares_modifyCell known w n _

theorem proceeds_pushed (w : World) (n : Nat) (point : Int32) (s l : Value) :
    w.Proceeds (w.pushed n point s l) :=
  (Proceeds.allocate w _).trans (proceeds_modifyCell _ n _)

end World

namespace Snapshot

open Machine World

/-- Saves a frame.  The operand stack is put back if it's needed afterwards. -/
def saveFrame (t : SlotTable) (g : Frame) (reload : Bool) : List Instruction :=
  saveStack t g.stack ++ (if reload then loadStack t g.stack else []) ++ saveLocals t g.locals

/-- Gets a saved frame back. -/
def loadFrame (t : SlotTable) (g : Frame) : List Instruction :=
  loadStack t g.stack ++ loadLocals t g.locals

variable {m : Machine} {d : Method} {t : SlotTable} {known : Nat → Prop} {w : World}
  {own values : List Value} {c s l x : Value} {g : Frame}

theorem crosses_saveFrame (hm : m.Equipped) (ht : t.Follows d own.length) (hown : own.length ≤ 65535)
    (hstack : g.stack.length < 2147483648) (hf : ValueFrame.Meets w ⟨own, values⟩ g)
    (hfresh : ∀ b, w.objects.size ≤ b → ¬ known b) (reload : Bool) (s l x : Value) :
    ∃ u s' l' x', m.Crosses (saveFrame t g reload) (⟨own ++ [c, s, l, x], values⟩, w)
        (⟨own ++ [c, s', l', x'], if reload then values else []⟩, u) ∧
      w.Grows u ∧ u.Records known g ⟨own, values⟩ s' l' := by
  have hlocals : g.locals.length < 2147483648 := by
    have : own.length = g.locals.length := hf.locals.length_eq
    omega
  obtain ⟨u, a, x', hsave, hgrows, hsaved⟩ :=
    crosses_saveStack (c := c) (s := s) (l := l) (x := x) hm ht hf.stack hstack hfresh
  have hreload : m.Crosses (if reload then loadStack t g.stack else [])
      (⟨own ++ [c, .object a, l, x'], []⟩, u)
      (⟨own ++ [c, .object a, l, x'], if reload then values else []⟩, u) := by
    cases reload with
    | false => exact .nil m _
    | true =>
        obtain ⟨-, cells, ho, hsize, hroom, hcells⟩ := hsaved
        have hload := @crosses_loadStack m t known u (own ++ [c, .object a, l, x']) [] values a cells
          hm _ (getElem?_slot_of (k := 1) ht.stackArray) ho (hsize ▸ hroom)
          (hf.stack.imp fun _ _ h => ⟨h.1, h.2.evolves hgrows.evolves⟩) hcells
        rwa [List.append_nil] at hload
  obtain ⟨u', b, hsave', hgrows', hsaved'⟩ :=
    @crosses_saveLocals m d t known u own (if reload then values else []) c (.object a) l x' hm ht hown
      _ hlocals
      (fun k type htype htop => by
        obtain ⟨v, hv, hhas⟩ := hf.local k type htype
        exact ⟨v, hv, hhas.kind? htop⟩)
      fun b hb => hfresh b (Nat.le_trans hgrows.evolves.size_le hb)
  exact ⟨u', .object a, .object b, x', (hsave.append hreload).append hsave', hgrows.trans hgrows',
    hf.evolves (hgrows.trans hgrows').evolves, ⟨a, rfl, hsaved.grows hgrows'⟩, b, rfl, hsaved'⟩

theorem crosses_loadFrame (hm : m.Equipped) (ht : t.Follows d own.length)
    (hown : own.length ≤ 65535) {f : ValueFrame} (hf : w.Records known g f s l)
    (hlocals : f.locals.length = own.length) :
    ∃ own', m.Crosses (loadFrame t g) (⟨own ++ [c, s, l, x], []⟩, w)
        (⟨own' ++ [c, s, l, x], f.stack⟩, w) ∧
      own'.length = own.length ∧
      ∀ (k : Nat) (type : FrameValue), g.locals[k]? = some type → type ≠ .top →
        own'[k]? = f.locals[k]? := by
  obtain ⟨a, rfl, -, cells, ho, hsize, hroom, hcells⟩ := hf.stack
  obtain ⟨b, rfl, -, cells', ho', hsize', hroom', hcells'⟩ := hf.locals
  have hstack := @crosses_loadStack m t known w (own ++ [c, .object a, .object b, x]) [] f.stack a
    cells hm _ (getElem?_slot_of (k := 1) ht.stackArray) ho (hsize ▸ hroom) hf.meets.stack hcells
  rw [List.append_nil] at hstack
  obtain ⟨own', hload, hlength, hloaded⟩ :=
    @crosses_loadLocals m d t known w own f.stack f.locals c (.object a) x b cells' hm ht hown
      g.locals (Nat.le_of_eq (hf.meets.locals.length_eq.symm.trans hlocals)) ho' (hsize' ▸ hroom')
      (fun k type htype _ => hf.meets.local k type htype) hcells'
  exact ⟨own', hstack.append hload, hlength, hloaded⟩

end Snapshot

/-- The frame that's restored at a point. -/
def ContinuationPoint.restored (p : ContinuationPoint) : Frame := ⟨p.frame.locals, p.restoredStack⟩

namespace ContinuationPoint

open Machine Snapshot World

variable {m : Machine} {d : Method} {t : SlotTable} {known : Nat → Prop} {w : World}
  {own stack values : List Value} {c s l x v : Value} {n : Nat} {p : ContinuationPoint}

/-- What comes before the call of a method that may suspend saves the frame and leaves it as it
was. -/
theorem crosses_saveBlock (hm : m.Equipped) (ht : t.Follows d own.length)
    (hown : own.length ≤ 65535) (hstack : p.frame.stack.length < 2147483648)
    (hf : ValueFrame.Meets w ⟨own, values⟩ p.frame)
    (hfresh : ∀ b, w.objects.size ≤ b → ¬ known b) (s l x : Value) :
    ∃ u s' l' x', m.Crosses (p.saveBlock t) (⟨own ++ [c, s, l, x], values⟩, w)
        (⟨own ++ [c, s', l', x'], values⟩, u) ∧
      w.Grows u ∧ u.Records known p.frame ⟨own, values⟩ s' l' := by
  obtain ⟨u, s', l', x', hcross, hgrows, hrecords⟩ :=
    crosses_saveFrame (c := c) hm ht hown hstack hf hfresh true s l x
  exact ⟨u, s', l', x', hcross.append (.label hm.unlimited _ _), hgrows, hrecords⟩

/-- What stands in the place where a method suspends itself saves the frame, pushes it, sets the mode
and leaves. -/
theorem suspendBlock_eq (t : SlotTable) (p : ContinuationPoint) : p.suspendBlock t =
    (.pop :: saveFrame t p.restored false) ++ (pushState t p.id ++
      (setMode t Capability.saving ++ (leaveEarly p.returns ++ [.label p.restoreLabel]))) := by
  simp [suspendBlock, saveFrame, restored]

/-- What follows a call looks at the mode, pushes the frame and leaves. -/
theorem afterSave_eq (t : SlotTable) (p : ContinuationPoint) (proceed : Label) :
    p.afterSave t proceed =
      (getMode t ++ [.const (.int Capability.saving), .ifCompare .notEqual proceed]) ++
        (pushState t p.id ++ (leaveEarly p.returns ++ [.label proceed])) := by
  simp [afterSave]

/-- The comparison of modes. -/
theorem execute_ifCompare (locals stack : List Value) (w : World) (mode other : Int32) (l : Label) :
    ValueFrame.execute w ⟨locals, .int other :: .int mode :: stack⟩ (.ifCompare .notEqual l) =
      .ok (if mode = other then .proceed else .jump l, ⟨locals, stack⟩, w) := by
  have htest : Condition.test .notEqual mode other = !decide (mode = other) := by
    simp [Condition.test]
  simp only [ValueFrame.execute, ValueFrame.branch, ValueFrame.popInt_cons, Except.ok_bind, htest]
  by_cases h : mode = other <;> simp [h, pure, Except.pure] <;> rfl

/-- If states are being saved then a method that has called another one goes on to push its own. -/
theorem crosses_saving (hm : m.Equipped) (ht : t.Follows d own.length) (hc : w.Stands n c)
    (hmode : (w.cell n).mode = Capability.saving) (proceed : Label) :
    m.Crosses (getMode t ++ [.const (.int Capability.saving), .ifCompare .notEqual proceed])
      (⟨own ++ [c, s, l, x], stack⟩, w) (⟨own ++ [c, s, l, x], stack⟩, w) := by
  refine (crosses_getMode hm ht hc).append ?_
  refine (Crosses.const hm.unlimited _).cons (.single hm.unlimited ?_)
  simp only [World.constant, execute_ifCompare, hmode, if_true]

/-- If states aren't being saved then a method that has called another one goes on. -/
theorem passes_afterSave (hm : m.Equipped) (ht : t.Follows d own.length) (hc : w.Stands n c)
    (hmode : (w.cell n).mode ≠ Capability.saving) {proceed : Label} {a : Activation} {q : Nat}
    (hat : a.method.body.HasAt q (p.afterSave t proceed))
    (hnodup : (Body.placed a.method.body.instructions).Nodup) :
    m.Passes a (Span q (q + (p.afterSave t proceed).length)) q (⟨own ++ [c, s, l, x], stack⟩, w)
      (q + (p.afterSave t proceed).length) (⟨own ++ [c, s, l, x], stack⟩, w) := by
  have hparts : p.afterSave t proceed = (getMode t ++ [.const (.int Capability.saving)]) ++
      .ifCompare .notEqual proceed ::
        ((pushState t p.id ++ leaveEarly p.returns) ++ [.label proceed]) := by simp [afterSave]
  rw [hparts] at hat ⊢
  have hlook : m.Crosses (getMode t ++ [.const (.int Capability.saving)])
      (⟨own ++ [c, s, l, x], stack⟩, w) (⟨own ++ [c, s, l, x],
        .int Capability.saving :: .int (w.cell n).mode :: stack⟩, w) :=
    (crosses_getMode hm ht hc).append (.const hm.unlimited _)
  generalize getMode t ++ [.const (.int Capability.saving)] = look at hat hlook ⊢
  generalize pushState t p.id ++ leaveEarly p.returns = leaving at hat ⊢
  have hlabel := hat.right.tail.right
  have hlooked := hlook a q hat.left
  have hjump : m.Passes a (Span q (q + (look ++ Instruction.ifCompare .notEqual proceed ::
        (leaving ++ [Instruction.label proceed])).length)) (q + look.length)
      (⟨own ++ [c, s, l, x], .int Capability.saving :: .int (w.cell n).mode :: stack⟩, w)
      (q + look.length + 1 + leaving.length) (⟨own ++ [c, s, l, x], stack⟩, w) := by
    refine .jump hm.unlimited hat.right.head ⟨by omega, ?_⟩ ?_
      (Body.position?_of_get? hnodup hlabel.head)
    · simp only [List.length_append, List.length_cons]
      omega
    · rw [execute_ifCompare, if_neg hmode]
  have hplaced := (Crosses.label hm.unlimited proceed (⟨own ++ [c, s, l, x], stack⟩, w)) a _ hlabel
  have hend : q + look.length + 1 + leaving.length + [Instruction.label proceed].length =
      q + (look ++ Instruction.ifCompare .notEqual proceed ::
        (leaving ++ [Instruction.label proceed])).length := by
    simp only [List.length_append, List.length_cons, List.length_nil]
    omega
  rw [hend] at hplaced
  refine ((hlooked.mono fun k hk => ⟨hk.1, ?_⟩).trans hjump).trans
    (hplaced.mono fun k hk => ⟨by have := hk.1; omega, hk.2⟩)
  have := hk.2
  simp only [List.length_append, List.length_cons]
  omega

end ContinuationPoint

end Resumable
