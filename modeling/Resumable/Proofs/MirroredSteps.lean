import Resumable.Proofs.Mirrors

/-!
# Steps next to each other

A step of a call with the original methods is one or more steps of the call with resumable methods:
those that record the frame of a call that may suspend, the step itself, and those that start a
resumable method or go on in one after a call.
-/

namespace Resumable

open Machine

/-- The argument that's the capability if the method may suspend. -/
def Machine.capabilityArgument? (kind : InvokeKind) (args : List Value) : Option Value :=
  match kind with
  | .static => args.head?
  | .virtual => args.tail.head?

/-- The capability that's handed over is one of the arguments. -/
theorem Machine.mem_of_capabilityArgument? {kind : InvokeKind} {args : List Value} {c : Value}
    (h : capabilityArgument? kind args = some c) : c ∈ args := by
  cases kind with
  | static => exact List.mem_of_mem_head? h
  | virtual => exact List.mem_of_mem_tail (List.mem_of_mem_head? h)

/-- The capability that's handed over is found in its slot. -/
theorem ValueFrame.capability_entry {kind : InvokeKind} {method : MethodRef} {args : List Value}
    {w : World} {d : Method} {c : Value} (hk : d.isStatic ↔ kind = .static)
    (hargs : List.Forall₂ (fun v t => w.isInstance v t) args (argumentTypes method kind))
    (hc : capabilityArgument? kind args = some c) (n : Nat) :
    (entry args n).locals[d.capabilitySlot]? = some c := by
  cases kind with
  | static =>
      have hslot : d.capabilitySlot = 0 := by simp [Method.capabilitySlot, hk.2 rfl]
      rw [hslot]
      cases args with
      | nil => cases hc
      | cons v args =>
          obtain rfl : v = c := Option.some.inj hc
          simp only [entry, List.flatMap_cons]
          split <;> rfl
  | virtual =>
      have hslot : d.capabilitySlot = 1 := by
        have : d.isStatic = false := by simpa using hk
        simp [Method.capabilitySlot, this]
      rw [hslot]
      obtain _ | @⟨receiver, type, args, types, hreceiver, -⟩ := hargs
      have hnarrow : receiver.isWide = false := by
        cases receiver with
        | long | double => cases hreceiver
        | _ => rfl
      cases args with
      | nil => cases hc
      | cons v args =>
          obtain rfl : v = c := Option.some.inj hc
          simp only [entry, List.flatMap_cons, hnarrow, Bool.false_eq_true, if_false]
          split <;> rfl

/-- The frame that a resumable method starts in has four more slots than the original one's, and the
capability in its slot. -/
theorem Method.Woven.entry_eq_append {owner : String} {frames : Frames} {d d' : Method}
    (h : d.Woven owner frames d') {args : List Value} {c : Value} {w : World} {n : Nat}
    (hlength : (ValueFrame.entry args d.maxLocals.toNat).locals.length = d.maxLocals.toNat)
    (hc : w.Stands n c)
    (hslot : (ValueFrame.entry args d'.maxLocals.toNat).locals[d'.capabilitySlot]? = some c) :
    ValueFrame.entry args d'.maxLocals.toNat =
        ⟨(ValueFrame.entry args d.maxLocals.toNat).locals ++ [.null, .null, .null, .null], []⟩ ∧
      (ValueFrame.entry args d.maxLocals.toNat).locals[d.capabilitySlot]? = some c := by
  have hentry := ValueFrame.entry_add hlength 4
  have hsame : d'.capabilitySlot = d.capabilitySlot := by
    simp only [Method.capabilitySlot, h.isStatic]
  rw [h.maxLocals, hentry, hsame] at hslot
  refine ⟨by rw [h.maxLocals, hentry]; rfl, ?_⟩
  -- The slots after the method's own ones hold nulls.
  rcases Nat.lt_or_ge d.capabilitySlot
    (ValueFrame.entry args d.maxLocals.toNat).locals.length with hlt | hge
  · rwa [ValueFrame.extend, List.getElem?_append_left hlt] at hslot
  · rw [ValueFrame.extend, List.getElem?_append_right hge] at hslot
    obtain ⟨b, rfl, -⟩ := hc
    cases List.eq_of_mem_replicate (List.mem_of_getElem? hslot)

/-- The arguments leave room for the slots that a resumable method has for itself. -/
theorem Method.Woven.room_entry {owner : String} {frames : Frames} {d d' : Method}
    (h : d.Woven owner frames d') {args : List Value}
    (hlength : (ValueFrame.entry args d.maxLocals.toNat).locals.length = d.maxLocals.toNat) :
    (ValueFrame.entry args 0).locals.length + 4 ≤ d'.maxLocals.toNat := by
  have := h.maxLocals
  rw [ValueFrame.length_entry] at hlength ⊢
  omega

/-- A resumable method that's handed a capability starts with it in its slot. -/
theorem Method.Counterpart.capability_entry {d d' : Method} {method : MethodRef}
    {kind : InvokeKind} {args : List Value} {cells : Nat → Prop} {w : World}
    (h : d'.Counterpart method.owner d) (hmarked : d'.access.isInstrumented)
    (htype : d.type = method.type) (hk : d.isStatic ↔ kind = .static)
    (hargs : List.Forall₂ (fun v t => w.isInstance v t) args (argumentTypes method kind))
    (hands : method.type.isEligible → ∃ n c, cells n ∧ w.Stands n c ∧
      capabilityArgument? kind args = some c) :
    ∃ n c, cells n ∧ w.Stands n c ∧
      (ValueFrame.entry args d'.maxLocals.toNat).locals[d'.capabilitySlot]? = some c := by
  obtain ⟨frames, resumes⟩ := h.resumes hmarked
  obtain ⟨n, c, hn, hc, hargument⟩ := hands (htype ▸ resumes.eligible)
  refine ⟨n, c, hn, hc, ValueFrame.capability_entry ?_ hargs hargument _⟩
  rw [h.isStatic, hk]

theorem Machine.Reenters.proceeds {m : Machine} {cells : Nat → Prop} {w u : World} {depth : Nat}
    {kind : InvokeKind} {method : MethodRef} {args : List Value} {owner : String} {callee : Method}
    (h : m.Reenters cells w depth kind method args owner callee) (hw : w.Proceeds u) :
    m.Reenters cells u depth kind method args owner callee := by
  refine ⟨h.owner, h.invoke, fun hmarked => ?_, h.room⟩
  obtain ⟨n, c, hn, hc, hslot⟩ := h.capability hmarked
  exact ⟨n, c, hn, hc.proceeds hw, hslot⟩

namespace Activation

variable {m : Machine} {cells known known' : Nat → Prop} {w u : World} {a a₀ : Activation}
  {frames : Frames} {g g' : Frame} {i : Instruction} {f : ValueFrame} {kind : InvokeKind}
  {method : MethodRef} {args : List Value}

/-- True if the first activation is the second one, or waits at the same invocation. -/
inductive Awaits (cells : Nat → Prop) (w : World) : Activation → Activation → Prop
  | plain {a : Activation} (h : a.method.access.isInstrumented = false) : Awaits cells w a a
  | resumable {frames : Frames} {c s l x : Value} {kind : InvokeKind} {method : MethodRef}
      {a a₀ : Activation} (carries : a.Carries cells w frames c s l x a₀)
      (position : a.position = a₀.method.newPosition frames a₀.position)
      (call : a₀.method.body.get? a₀.position = some (.invoke kind method))
      (save : ∀ point proceed, a₀.method.site? frames a₀.position = some (point, proceed) →
        point.kind = .save) : Awaits cells w a a₀

theorem Blocked.awaits {depth : Nat} {owner : String} {callee : Method}
    (h : a.Blocked m cells known w depth owner callee a₀) : a.Awaits cells w a₀ := by
  cases h with
  | plain h => exact .plain h
  | resumable carries position call sited records =>
      exact .resumable carries position call fun point proceed hsite =>
        (records point proceed hsite).1

theorem Blocked.spares {depth : Nat} {owner : String} {callee : Method}
    (h : a.Blocked m cells known w depth owner callee a₀) (hw : World.Spares known known' w u) :
    a.Blocked m cells known' u depth owner callee a₀ := by
  cases h with
  | plain h => exact .plain h
  | resumable carries position call sited records =>
      refine .resumable (carries.proceeds hw.proceeds) position call sited fun point proceed hsite => ?_
      obtain ⟨hsave, args, hargs, hrecords, hreenters⟩ := records point proceed hsite
      exact ⟨hsave, args, hargs, hrecords.spares hw, hreenters.proceeds hw.proceeds⟩

theorem Awaits.proceeds (h : a.Awaits cells w a₀) (hw : w.Proceeds u) : a.Awaits cells u a₀ := by
  cases h with
  | plain h => exact .plain h
  | resumable carries position call save =>
      exact .resumable (carries.proceeds hw) position call save

/-- A method that has waited goes on at the next block. -/
theorem Awaits.returns (hm : m.Equipped) (h : a.Awaits cells w a₀)
    (normal : ∀ n, cells n → (w.cell n).mode = Capability.normal) (result : Option Value)
    (callers : List Activation) (executed : Nat) :
    ∃ trail executed' a₁, m.Advances ⟨w, executed, CallState.resumed a result, callers⟩ trail
        ⟨w, executed', a₁, callers⟩ ∧ (∀ s ∈ trail, s.current.Calm) ∧
      a₁.Begins cells w (CallState.resumed a₀ result) ∧ a₁.owner = a.owner ∧
      a₁.method = a.method := by
  cases h with
  | plain h =>
      exact ⟨[], executed, CallState.resumed a result, .refl _, by simp, .plain h, rfl, rfl⟩
  | @resumable frames c s l x kind method _ _ carries position call save =>
      rw [resumed_eq a, resumed_eq a₀, carries.frame, ValueFrame.pushResult_extend, position]
      have hown : (pushResult a₀.frame result).locals.length = a₀.method.maxLocals.toNat := by
        rw [ValueFrame.locals_pushResult, carries.length]
      obtain ⟨trail, executed', hadvances, hinside⟩ := carries.passes_after hm call save normal hown
        (pushResult a₀.frame result).stack callers executed
      exact ⟨trail, executed', _, hadvances, fun s hs => calm_of_inside (hinside s hs) fun p f hspan =>
        carries.calm_after call save f hspan, .resumable (carries.spot hown _ _) rfl, rfl, rfl⟩

/-- Both frames do the same. -/
theorem Faces.execute (h : a.Faces cells known w a₀) (hp : a₀.Poised known' w frames g i g') :
    ∃ slots, a.frame = a₀.frame.extend slots ∧ a.frame.execute w i =
      (fun x => (x.1, x.2.1.extend slots, x.2.2)) <$> a₀.frame.execute w i := by
  cases h with
  | plain =>
      have hnil (f : ValueFrame) : f.extend [] = f := by simp [ValueFrame.extend]
      refine ⟨[], (hnil _).symm, ?_⟩
      simp only [hnil]
      exact (id_map _).symm
  | resumable carries =>
      refine ⟨_, carries.frame, ?_⟩
      rw [carries.frame]
      exact ValueFrame.execute_extend _ _ hp.local_lt

theorem Faces.fails (h : a.Faces cells known w a₀) (hp : a₀.Poised known' w frames g i g')
    {e : MachineError} (he : a₀.frame.execute w i = .error e) : a.frame.execute w i = .error e := by
  obtain ⟨slots, -, hexecute⟩ := h.execute hp
  rw [hexecute, he]
  rfl

theorem Faces.leaves (h : a.Faces cells known w a₀) (hp : a₀.Poised known' w frames g i g')
    {result : Option Value} (he : a₀.frame.execute w i = .ok (.leave result, f, u)) :
    ∃ f₁, a.frame.execute w i = .ok (.leave result, f₁, u) := by
  obtain ⟨slots, -, hexecute⟩ := h.execute hp
  exact ⟨f.extend slots, by rw [hexecute, he]; rfl⟩

/-- Only invocations are sites. -/
theorem site?_eq_none {d : Method} {p : Nat} (hg : frames.at? p = some g)
    (hi : d.body.get? p = some i) (hno : i.invoked? = none) : d.site? frames p = none := by
  cases hsite : d.site? frames p with
  | none => rfl
  | some site =>
      obtain ⟨-, -, -, -, hkind⟩ := Method.of_site? hsite hg hi
      cases hk : site.1.kind with
      | suspend => simp [hk, Instruction.isSuspend, Instruction.invokes, hno] at hkind
      | save => simp [hk, Instruction.isSave, hno] at hkind

/-- What follows an instruction that's no site. -/
theorem newPosition_succ {d : Method} {p : Nat} (hsite : d.site? frames p = none)
    (hi : d.body.get? p = some i) :
    d.newPosition frames p + 1 = d.blockStart frames (p + 1) := by
  rw [Method.blockStart_succ hi]
  simp [Method.newPosition, Method.before, Method.block, hsite]

/-- Going on at the next instruction. -/
theorem Faces.proceed (h : a.Faces cells known w a₀) (hp : a₀.Poised known' w frames g i g')
    (hno : i.invoked? = none) (hw : w.Proceeds u)
    (he : a₀.frame.execute w i = .ok (.proceed, f, u))
    (hlength : f.locals.length = a₀.method.maxLocals.toNat) :
    ∃ f₁, a.frame.execute w i = .ok (.proceed, f₁, u) ∧
      Begins cells u (spot a (a.position + 1) f₁) (spot a₀ (a₀.position + 1) f) := by
  obtain ⟨slots, hslots, hexecute⟩ := h.execute hp
  cases h with
  | plain h => exact ⟨f, he, .plain h⟩
  | @resumable frames' c s l x _ _ carries position =>
      obtain rfl : frames' = frames := Except.ok.inj (carries.resumes.analyze.symm.trans hp.analyze)
      obtain rfl : slots = [c, s, l, x] := by
        have := hslots.symm.trans carries.frame
        simpa [ValueFrame.extend] using this
      refine ⟨f.extend [c, s, l, x], by rw [hexecute, he]; rfl, ?_⟩
      refine .resumable ((carries.proceeds hw).spot hlength _ _) ?_
      simp only [spot, position]
      exact newPosition_succ (site?_eq_none hp.frame hp.get? hno) hp.get?

/-- Going on at a label. -/
theorem Faces.jump (h : a.Faces cells known w a₀) (hp : a₀.Poised known' w frames g i g')
    (hw : w.Proceeds u) {l : Label} {q : Nat}
    (he : a₀.frame.execute w i = .ok (.jump l, f, u)) (hq : a₀.method.body.position? l = some q)
    (hlength : f.locals.length = a₀.method.maxLocals.toNat) :
    ∃ f₁ q₁, a.frame.execute w i = .ok (.jump l, f₁, u) ∧ a.method.body.position? l = some q₁ ∧
      Begins cells u (spot a q₁ f₁) (spot a₀ q f) := by
  obtain ⟨slots, hslots, hexecute⟩ := h.execute hp
  cases h with
  | plain h => exact ⟨f, q, he, hq, .plain h⟩
  | @resumable frames' c s l' x _ _ carries position =>
      obtain rfl : slots = [c, s, l', x] := by
        have := hslots.symm.trans carries.frame
        simpa [ValueFrame.extend] using this
      exact ⟨f.extend [c, s, l', x], _, by rw [hexecute, he]; rfl, carries.resumes.position? hq,
        .resumable ((carries.proceeds hw).spot hlength _ _) rfl⟩

/-- What's invoked with the arguments that are on the stack. -/
theorem frame_of_call {f₀ : ValueFrame} {kind' : InvokeKind} {method' : MethodRef}
    (he : f₀.execute w (.invoke kind method) = .ok (.call kind' method' args, f, u)) :
    kind' = kind ∧ method' = method ∧ u = w ∧ args.length = (argumentTypes method kind).length ∧
      f₀ = ⟨f.locals, args.reverse ++ f.stack⟩ := by
  simp only [ValueFrame.execute] at he
  obtain ⟨⟨args', f'⟩, hpop, he⟩ := Except.bind_eq_ok.1 he
  cases he
  have hcount (n : Nat) (hpop : f₀.popMany n = .ok (args', f')) :
      args'.length = n ∧ f₀ = ⟨f'.locals, args'.reverse ++ f'.stack⟩ := by
    simp only [ValueFrame.popMany] at hpop
    split at hpop
    · cases hpop
    · cases hpop
      obtain ⟨locals, stack⟩ := f₀
      simp_all
  obtain ⟨hlength, hf⟩ := hcount _ hpop
  refine ⟨rfl, rfl, rfl, hlength.trans ?_, hf⟩
  cases kind <;> rfl

/-- Waiting at an invocation. -/
theorem Faces.call (h : a.Faces cells known w a₀)
    (hp : a₀.Poised known' w frames g (.invoke kind method) g')
    (he : a₀.frame.execute w (.invoke kind method) = .ok (.call kind method args, f, w)) :
    ∃ f₁, a.frame.execute w (.invoke kind method) = .ok (.call kind method args, f₁, w) ∧
      Awaits cells w (spot a a.position f₁) (spot a₀ a₀.position f) ∧
      ∀ depth owner callee, m.Reenters cells w depth kind method args owner callee →
        (callee.access.isInstrumented → method.type.isEligible) →
        Blocked m cells known w depth owner callee (spot a a.position f₁)
          (spot a₀ a₀.position f) := by
  obtain ⟨-, -, -, hargs, hframe⟩ := frame_of_call he
  obtain ⟨slots, hslots, hexecute⟩ := h.execute hp
  cases h with
  | plain h => exact ⟨f, he, .plain h, fun _ _ _ _ _ => .plain h⟩
  | @resumable frames' c s l x _ _ carries position records =>
      obtain rfl : frames' = frames := Except.ok.inj (carries.resumes.analyze.symm.trans hp.analyze)
      obtain rfl : slots = [c, s, l, x] := by
        have := hslots.symm.trans carries.frame
        simpa [ValueFrame.extend] using this
      have hlength : f.locals.length = a₀.method.maxLocals.toNat := by
        rw [← carries.length, hframe]
      have hspot := carries.spot hlength a.position a₀.position
      refine ⟨f.extend [c, s, l, x], by rw [hexecute, he]; rfl, ?_,
        fun depth owner callee hre heligible => ?_⟩
      · exact .resumable hspot position hp.get? fun point proceed hsite =>
          (records point proceed hsite).1
      · refine .resumable hspot position hp.get? (fun hmarked => ?_) fun point proceed hsite => ?_
        · have hsave : (Instruction.invoke kind method).isSave := by
            simpa [Instruction.isSave, Instruction.invoked?] using heligible hmarked
          obtain ⟨point, hpoint, hposition⟩ := Method.exists_point hp.frame hp.get? (.inr hsave)
          obtain ⟨proceed, hsite⟩ := Method.exists_site hpoint
          exact Option.isSome_iff_exists.2 ⟨_, hposition ▸ hsite⟩
        obtain ⟨hsave, hrecords⟩ := records point proceed hsite
        rw [hframe] at hrecords
        exact ⟨hsave, args, hargs, hrecords, hre⟩

/-- A method that's entered gets to the block of its first instruction. -/
theorem begins_entered (hm : m.Equipped) {d d' : Method} {owner : String}
    (hd : d'.Counterpart owner d)
    (hlength : (ValueFrame.entry args d.maxLocals.toNat).locals.length = d.maxLocals.toNat)
    (hcapability : d'.access.isInstrumented → ∃ n c, cells n ∧ w.Stands n c ∧
      (ValueFrame.entry args d'.maxLocals.toNat).locals[d'.capabilitySlot]? = some c)
    (normal : ∀ n, cells n → (w.cell n).mode = Capability.normal) (callers : List Activation)
    (executed : Nat) :
    ∃ trail executed' a₁, m.Advances
        ⟨w, executed, ⟨owner, d', 0, .entry args d'.maxLocals.toNat⟩, callers⟩ trail
        ⟨w, executed', a₁, callers⟩ ∧ (∀ s ∈ trail, s.current.Calm) ∧
      a₁.Begins cells w ⟨owner, d, 0, .entry args d.maxLocals.toNat⟩ ∧ a₁.owner = owner ∧
      a₁.method = d' := by
  rcases hd with ⟨rfl, hplain⟩ | ⟨frames, resumes⟩
  · exact ⟨[], executed, _, .refl _, by simp, .plain hplain, rfl, rfl⟩
  · obtain ⟨n, c, hn, hc, hslot⟩ := hcapability resumes.marked
    obtain ⟨hentry, hparam⟩ := resumes.entry_eq_append hlength hc hslot
    obtain ⟨trail, executed', hadvances, hinside⟩ :=
      resumes.passes_start (a := ⟨owner, d', 0, .entry args d'.maxLocals.toNat⟩) (y := .null)
        (s := .null) (l := .null) (x := .null) rfl hm hlength hparam hc (normal n hn) callers executed
    have hbegins : Begins cells w (spot ⟨owner, d', 0, .entry args d'.maxLocals.toNat⟩
        (d.blockStart frames 0) ((ValueFrame.entry args d.maxLocals.toNat).extend
          [c, .null, .null, .null])) ⟨owner, d, 0, .entry args d.maxLocals.toNat⟩ :=
      .resumable ⟨rfl, resumes, rfl, hlength, n, hn, hc⟩ rfl
    refine ⟨trail, executed', _, ?_, fun s hs => calm_of_inside (hinside s hs) fun p f hspan =>
      Method.Woven.calm_start resumes hspan, hbegins, rfl, rfl⟩
    rw [hentry]
    exact hadvances

end Activation

namespace CallState

variable {m m₀ : Machine} {cells known known' : Nat → Prop} {s t t' : CallState} {w u : World}
  {owner : String} {callee : Method} {callers callers₀ : List Activation}

theorem Stacked.spares (h : Stacked m cells known w owner callee callers callers₀)
    (hw : World.Spares known known' w u) :
    Stacked m cells known' u owner callee callers callers₀ := by
  induction h with
  | nil owner callee => exact .nil owner callee
  | cons blocked _ ih => exact .cons (blocked.spares hw) ih

/-- The running method gets to its instruction, unless it's one where the method suspends itself. -/
theorem Mirrors.arrives (hm : m.Equipped) (h : s.Mirrors m cells known t) (ht : t.Tame known)
    (hi : ∀ i, t.current.method.body.get? t.current.position = some i →
      s.current.method.access.isInstrumented → i.isSuspend = false) :
    ∃ trail s₁, m.Advances s trail s₁ ∧ (∀ s ∈ trail, s.current.Calm) ∧
      s.world.Grows s₁.world ∧ s₁.Faces m cells known { t with world := s₁.world } ∧
      s₁.callers = s.callers := by
  obtain ⟨w, executed, a, callers⟩ := s
  have hw : t.world = w := h.world
  obtain ⟨frames, g, i, g', hp⟩ := ht.typed.runs.poised ht.typed.world
  obtain ⟨trail, executed', u, a₁, hadvances, hcalm, hgrows, hfaces, howner, hmethod⟩ :=
    h.current.faces hm (hw ▸ hp) (fun b hb => hw ▸ ht.tidy.closed.lt_size hb)
      (hi i hp.get?) callers executed
  refine ⟨trail, ⟨u, executed', a₁, callers⟩, hadvances, hcalm, hgrows, ⟨rfl, hfaces, ?_, ?_⟩, rfl⟩
  · have hcallers := h.callers.spares (hgrows.spares known)
    dsimp only at hcallers ⊢
    rw [howner, hmethod]
    exact hcallers
  · intro n hn
    exact (congrArg CapabilityCell.mode (World.cell_congr hgrows.capabilities n)).trans
      (h.normal n hn)

/-- True if the method that the next step enters, if it enters one that may suspend, is handed a
capability with one of the numbers. -/
def HandsOver (m : Machine) (cells : Nat → Prop) (t : CallState) : Prop :=
  ∀ kind method args a, t.invocation? = some (kind, method, args) →
    m.invoke (t.callers.length + 1) t.world kind method args = .entered a →
    method.type.isEligible → ∃ n c, cells n ∧ t.world.Stands n c ∧
      capabilityArgument? kind args = some c

theorem Stacked.length_eq (h : Stacked m cells known w owner callee callers callers₀) :
    callers.length = callers₀.length := by
  induction h with
  | nil => rfl
  | cons _ _ ih => simp [ih]

/-- A method that has waited goes on, and gets to the next block. -/
theorem returning (hm : m.Equipped) {a a₀ : Activation} (executed : Nat)
    (h : a.Awaits cells w a₀) (normal : ∀ n, cells n → (w.cell n).mode = Capability.normal)
    (hcallers : Stacked m cells known w a.owner a.method callers callers₀)
    (result : Option Value) (executed₀ : Nat) :
    ∃ s₁ trail s', CallStatus.running ⟨w, executed, resumed a result, callers⟩ = .running s₁ ∧
      m.Advances s₁ trail s' ∧ (∀ s ∈ trail, s.current.Calm) ∧
      s'.Mirrors m cells known ⟨w, executed₀, resumed a₀ result, callers₀⟩ := by
  obtain ⟨trail, executed', a₁, hadvances, hcalm, hbegins, howner, hmethod⟩ :=
    h.returns hm normal result callers executed
  exact ⟨_, trail, _, rfl, hadvances, hcalm, rfl, hbegins, howner ▸ hmethod ▸ hcallers, normal⟩

/-- Counterparts that are entered.  The resumable one gets to its first block. -/
theorem entering (hm : m.Equipped) {kind : InvokeKind} {method : MethodRef} {args : List Value}
    {d d' : Method} {a a₀ : Activation} (hcounterpart : d'.Counterpart method.owner d)
    (hlength : (ValueFrame.entry args d.maxLocals.toNat).locals.length = d.maxLocals.toNat)
    (hcapability : d'.access.isInstrumented → ∃ n c, cells n ∧ w.Stands n c ∧
      (ValueFrame.entry args d'.maxLocals.toNat).locals[d'.capabilitySlot]? = some c)
    (hinvoke : ∀ v, m.invoke (callers.length + 1) v kind method args =
      .entered ⟨method.owner, d', 0, .entry args d'.maxLocals.toNat⟩)
    (hblocked : m.Reenters cells w (callers.length + 1) kind method args method.owner d' →
      a.Blocked m cells known w (callers.length + 1) method.owner d' a₀)
    (hcallers : Stacked m cells known w a.owner a.method callers callers₀)
    (normal : ∀ n, cells n → (w.cell n).mode = Capability.normal) (executed executed₀ : Nat) :
    ∃ trail s', m.Advances ⟨w, executed, ⟨method.owner, d', 0, .entry args d'.maxLocals.toNat⟩,
        a :: callers⟩ trail s' ∧ (∀ s ∈ trail, s.current.Calm) ∧
      s'.Mirrors m cells known ⟨w, executed₀,
        ⟨method.owner, d, 0, .entry args d.maxLocals.toNat⟩, a₀ :: callers₀⟩ := by
  have hroom (hmarked : d'.access.isInstrumented) :
      (ValueFrame.entry args 0).locals.length + 4 ≤ d'.maxLocals.toNat := by
    obtain ⟨frames, resumes⟩ := hcounterpart.resumes hmarked
    exact resumes.room_entry hlength
  obtain ⟨trail, executed', a₁, hadvances, hcalm, hbegins, howner, hmethod⟩ :=
    Activation.begins_entered hm hcounterpart hlength hcapability normal (a :: callers) executed
  refine ⟨trail, _, hadvances, hcalm, rfl, hbegins, ?_, normal⟩
  dsimp only
  rw [howner, hmethod]
  exact .cons (hblocked ⟨rfl, hinvoke, hcapability, hroom⟩) hcallers

/-- An invocation that doesn't end the call with the original methods, where the arguments have been
taken from both stacks. -/
theorem follow_call (hmade : m.MadeFrom m₀) (hverified : m₀.Verified) (hm : m.Equipped)
    {kind : InvokeKind} {method : MethodRef} {args : List Value} (hworld : t.world = s.world)
    (hawaits : s.current.Awaits cells t.world t.current)
    (hcallers : Stacked m cells known t.world s.current.owner s.current.method s.callers t.callers)
    (hblocked : ∀ depth owner callee, m.Reenters cells t.world depth kind method args owner callee →
      (callee.access.isInstrumented → method.type.isEligible) →
      s.current.Blocked m cells known t.world depth owner callee t.current)
    (fit : List.Forall₂ (fun v type => t.world.isInstance v type ∧ v.Known (t.world.OrFresh known))
      args (argumentTypes method kind))
    (hands : ∀ a, m₀.invoke (t.callers.length + 1) t.world kind method args = .entered a →
      method.type.isEligible → ∃ n c, cells n ∧ t.world.Stands n c ∧
        capabilityArgument? kind args = some c)
    (next : m₀.follow t (.call kind method args) = .running t')
    (hspares : World.Spares known known' t.world t'.world)
    (normal : ∀ n, cells n → (t'.world.cell n).mode = Capability.normal) :
    ∃ s₁ trail s', m.follow s (.call kind method args) = .running s₁ ∧ m.Advances s₁ trail s' ∧
      (∀ s ∈ trail, s.current.Calm) ∧ s'.Mirrors m cells known' t' := by
  obtain ⟨w, executed, a, callers⟩ := s
  obtain ⟨w₀, executed₀, a₀, callers₀⟩ := t
  obtain rfl : w = w₀ := hworld.symm
  dsimp only at hawaits hcallers hblocked fit hands hspares
  simp only [follow, ← hcallers.length_eq] at next hands ⊢
  rcases hmade.invoke_cases (callers.length + 1) w kind method args with
    ⟨e, hinvoke₀, hinvoke⟩ | ⟨native, -, hinvoke, hinvoke₀⟩ |
    ⟨d, d', hcounterpart, hd, -, hb, hk, hinvoke⟩
  · rw [hinvoke₀] at next
    cases next
  · rw [hinvoke₀] at hinvoke next
    rw [hinvoke]
    generalize native w args = outcome at next ⊢
    obtain ⟨e | result, u⟩ := outcome
    · cases next
    · cases next
      exact returning hm executed (hawaits.proceeds hspares.proceeds) normal
        (hcallers.spares hspares) _ _
  · have hentered := (hinvoke w).1
    rw [hentered] at next
    cases next
    rw [(hinvoke w).2]
    have hlength := (runs_of_entered hverified fit hd hb hk).length_locals
    obtain ⟨-, -, -, -, -, htype⟩ := method?_eq_some hd
    have heligible (hmarked : d'.access.isInstrumented) : method.type.isEligible := by
      obtain ⟨frames', resumes⟩ := hcounterpart.resumes hmarked
      exact htype ▸ resumes.eligible
    obtain ⟨trail, s', hadvances, hcalm, hmirrors⟩ := entering hm hcounterpart hlength
      (fun hmarked => hcounterpart.capability_entry hmarked htype hk
        (fit.imp fun _ _ h => h.1) (hands _ hentered))
      (fun v => (hinvoke v).2)
      (fun hreenters => (hblocked _ _ _ hreenters heligible).spares hspares)
      (hcallers.spares hspares) normal executed executed₀
    exact ⟨_, trail, s', rfl, hadvances, hcalm, hmirrors⟩

/-- A step with the original methods is a step with resumable methods, and further ones that get to
the next block. -/
theorem Faces.step (hmade : m.MadeFrom m₀) (hverified : m₀.Verified) (hm : m.Equipped)
    (h : s.Faces m cells known t) (ht : t.Tame known) (hcells : t.HandsOver m₀ cells)
    (next : m₀.step t = .running t') (hspares : World.Spares known known' t.world t'.world)
    (hkept : ∀ n, cells n → (t'.world.cell n).mode = (t.world.cell n).mode) :
    ∃ s₁ trail s', m.step s = .running s₁ ∧ m.Advances s₁ trail s' ∧
      (∀ s ∈ trail, s.current.Calm) ∧ s'.Mirrors m cells known' t' := by
  obtain ⟨w, executed, a, callers⟩ := s
  obtain ⟨w₀, executed₀, a₀, callers₀⟩ := t
  obtain rfl : w = w₀ := h.world.symm
  have hlimit : m₀.limits.instructions = none := hmade.limits ▸ hm.unlimited
  obtain ⟨frames, g, i, g', hp⟩ := ht.typed.runs.poised ht.typed.world
  have hcurrent := h.current
  have hcallers := h.callers
  have normal (u : World) (hu : ∀ n, cells n → (u.cell n).mode = (w.cell n).mode) (n : Nat)
      (hn : cells n) : (u.cell n).mode = Capability.normal := (hu n hn).trans (h.normal n hn)
  dsimp only at hp hcurrent hcallers
  rw [step_eq_execute hlimit hp.get?] at next
  rw [step_eq_execute hm.unlimited (hcurrent.get? hp)]
  have hforeseen := hp.executes
  simp only [ValueFrame.Executes] at hforeseen
  simp only [step.execute] at next ⊢
  cases hexecute : a₀.frame.execute w i with
  | error e =>
      rw [hexecute] at next
      cases next
  | ok outcome =>
      obtain ⟨flow, f, u⟩ := outcome
      rw [hexecute] at next hforeseen
      obtain ⟨-, hevolves, hforeseen⟩ := hforeseen
      have hlength {k : Frame} (hf : f.Conforms (w.OrFresh known) u k)
          (hk : k.locals.length = g.locals.length) :
          f.locals.length = a₀.method.maxLocals.toNat := by
        rw [hf.locals.length_eq, hk, hp.wellFormed.localsLength]
      cases hforeseen with
      | proceed falls conforms =>
          cases next
          have hno : i.invoked? = none := by
            cases i with
            | invoke kind method =>
                simp only [ValueFrame.execute] at hexecute
                obtain ⟨_, -, hexecute⟩ := Except.bind_eq_ok.1 hexecute
                cases hexecute
            | _ => rfl
          obtain ⟨f₁, hexecute₁, hbegins⟩ := hcurrent.proceed hp hno hspares.proceeds hexecute
            (hlength conforms hp.rule.length_locals)
          rw [hexecute₁]
          exact ⟨_, [], _, rfl, .refl _, by simp, rfl, hbegins, hcallers.spares hspares,
            normal u hkept⟩
      | @jump target listed conforms =>
          obtain ⟨places, hplaces⟩ := hp.analyzed.labels
          obtain ⟨q, hq⟩ := Body.position?_of_mem_targets hplaces hp.get? listed
          simp only [follow, hq] at next
          cases next
          obtain ⟨f₁, q₁, hexecute₁, hq₁, hbegins⟩ := hcurrent.jump hp hspares.proceeds hexecute hq
            (hlength conforms hp.rule.length_locals)
          rw [hexecute₁]
          refine ⟨⟨u, executed + 1, spot a q₁ f₁, callers⟩, [], _, ?_, .refl _, by simp, rfl, hbegins,
            hcallers.spares hspares, normal u hkept⟩
          simp only [follow, hq₁]
          rfl
      | leave promised =>
          obtain ⟨f₁, hexecute₁⟩ := hcurrent.leaves hp hexecute
          rw [hexecute₁]
          simp only [follow, leave] at next ⊢
          cases hcallers with
          | nil => cases next
          | @cons _ _ b b₀ rest rest₀ blocked hrest =>
              cases next
              exact returning hm (executed + 1)
                (blocked.awaits.proceeds hspares.proceeds) (normal u hkept) (hrest.spares hspares) _ _
      | @call kind method args rest here fit stack conforms =>
          subst here
          obtain rfl : u = w := ValueFrame.world_of_invoke hexecute
          have hcall : invocation? ⟨u, executed₀, a₀, callers₀⟩ = some (kind, method, args) := by
            simp [invocation?, hp.get?, hexecute]
          obtain ⟨f₁, hexecute₁, hawaits, hblocked⟩ := hcurrent.call (m := m) hp hexecute
          rw [hexecute₁]
          exact follow_call (s := ⟨u, executed + 1, spot a a.position f₁, callers⟩)
            (t := ⟨u, executed₀ + 1, spot a₀ a₀.position f, callers₀⟩) hmade hverified hm rfl hawaits
            hcallers hblocked fit (fun b hb => hcells kind method args b hcall hb) next hspares
            (normal _ hkept)

/-- A call that ends with the original methods ends with resumable methods as well, in the same way.
If it ends well then capabilities are as they were before its last step. -/
theorem Faces.over (hmade : m.MadeFrom m₀) (hm : m.Equipped)
    (h : s.Faces m cells known t) (ht : t.Tame known) {c : Completion}
    (next : m₀.step t = .over c) :
    ∃ c', m.step s = .over c' ∧ c'.world = c.world ∧
      c'.result.mapError (·.cause) = c.result.mapError (·.cause) ∧
      ∀ result, c.result = .ok result → c.world.capabilities = t.world.capabilities := by
  obtain ⟨w, executed, a, callers⟩ := s
  obtain ⟨w₀, executed₀, a₀, callers₀⟩ := t
  obtain rfl : w = w₀ := h.world.symm
  have hlimit : m₀.limits.instructions = none := hmade.limits ▸ hm.unlimited
  obtain ⟨frames, g, i, g', hp⟩ := ht.typed.runs.poised ht.typed.world
  have hcurrent := h.current
  have hcallers := h.callers
  dsimp only at hp hcurrent hcallers
  rw [step_eq_execute hlimit hp.get?] at next
  rw [step_eq_execute hm.unlimited (hcurrent.get? hp)]
  have hforeseen := hp.executes
  simp only [ValueFrame.Executes] at hforeseen
  simp only [step.execute] at next ⊢
  have fails (e : MachineError) (active active₀ : List Activation) (u : World)
      (next : CallStatus.failed e active₀ u = .over c) :
      ∃ c', CallStatus.failed e active u = .over c' ∧ c'.world = c.world ∧
        c'.result.mapError (·.cause) = c.result.mapError (·.cause) ∧
        ∀ result, c.result = .ok result → c.world.capabilities = w.capabilities := by
    cases next
    refine ⟨_, rfl, rfl, rfl, fun result hresult => ?_⟩
    cases hresult
  cases hexecute : a₀.frame.execute w i with
  | error e =>
      rw [hexecute] at next
      rw [hcurrent.fails hp hexecute]
      exact fails e _ _ _ next
  | ok outcome =>
      obtain ⟨flow, f, u⟩ := outcome
      rw [hexecute] at next hforeseen
      obtain ⟨-, -, hforeseen⟩ := hforeseen
      cases hforeseen with
      | proceed => cases next
      | jump listed =>
          obtain ⟨places, hplaces⟩ := hp.analyzed.labels
          obtain ⟨q, hq⟩ := Body.position?_of_mem_targets hplaces hp.get? listed
          simp only [follow, hq] at next
          cases next
      | leave =>
          obtain ⟨f₁, hexecute₁⟩ := hcurrent.leaves hp hexecute
          rw [hexecute₁]
          simp only [follow, leave] at next ⊢
          cases hcallers with
          | nil =>
              cases next
              exact ⟨_, rfl, rfl, rfl, fun _ _ => (ValueFrame.changes_execute hexecute).capabilities⟩
          | cons => cases next
      | @call kind method args _ here =>
          subst here
          obtain rfl : u = w := ValueFrame.world_of_invoke hexecute
          obtain ⟨f₁, hexecute₁, -⟩ := hcurrent.call (m := m) hp hexecute
          rw [hexecute₁]
          simp only [follow, ← hcallers.length_eq] at next ⊢
          rcases hmade.invoke_cases (callers.length + 1) u kind method args with
            ⟨e, hinvoke₀, hinvoke⟩ | ⟨native, -, hinvoke, hinvoke₀⟩ |
            ⟨d, d', -, -, -, -, -, hinvoke⟩
          · rw [hinvoke₀] at next
            rw [hinvoke]
            exact fails e _ _ u next
          · rw [hinvoke₀] at hinvoke next
            rw [hinvoke]
            generalize native u args = outcome at next ⊢
            obtain ⟨e | result, v⟩ := outcome
            · exact fails e _ _ v next
            · cases next
          · rw [(hinvoke u).1] at next
            cases next

end CallState

end Resumable
