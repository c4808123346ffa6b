import Resumable.Proofs.Dispatch
import Resumable.Proofs.Shifts

/-!
# Going on from a point

A method that's entered in loading mode takes the last state from its capability, and gets the frame
back that was saved in it.  Then it goes on at the state's point: it repeats the call that it was in,
or it goes on after the place where it suspended itself.
-/

namespace Resumable

open CallState Snapshot Machine

/-- A switch gets to the label at the value's index. -/
theorem tableTarget_ofNat {k : Nat} {otherwise l : Label} {targets : List Label}
    (hk : targets[k]? = some l) (hlt : k < 2147483648) :
    tableTarget 0 (Int32.ofNat k) otherwise targets = l := by
  have hint : (Int32.ofNat k).toInt = k := Int32.toInt_ofNat_of_lt (by omega)
  have hzero : (0 : Int32).toInt = 0 := rfl
  simp only [tableTarget, hint, hzero, Int.sub_zero]
  rw [if_neg (by omega), List.getD_eq_getElem?_getD, Int.toNat_natCast, hk, Option.getD_some]

/-- True if a run gets from one state to the other by code that has been added, and takes one state
from the capability with the given number on the way.  Capabilities are what they were until then,
and what they are in the end from then on. -/
structure Machine.Takes (m : Machine) (n : Nat) (s : CallState) (shift : Shift) (t : CallState)
    (before after : List CallState) : Prop where
  advances : m.Advances s (before ++ after) t
  added : ∀ u ∈ before ++ after, u.current.Added
  takes : pops n before = [shift]
  retains : pops n after = []
  unchanged : ∀ u ∈ before, u.world.capabilities = s.world.capabilities
  changed : ∀ u ∈ after, u.world.capabilities = t.world.capabilities

namespace Method

variable {m : Machine} {d d' : Method} {owner : String} {frames : Frames}
  {point : ContinuationPoint} {known : Nat → Prop} {w : World} {n : Nat}

/-- Where the resumable method goes on at a point, once the frame is back. -/
def resumption (d : Method) (frames : Frames) (point : ContinuationPoint) : Nat :=
  match point.kind with
  | .suspend => d.blockStart frames (point.position + 1)
  | .save => d.newPosition frames point.position

/-- A method has fewer points than there are ints from zero up, since each has labels of its own. -/
theorem Woven.length_points_lt (h : d.Woven owner frames d') :
    (d.points frames).length < 2147483648 := by
  have hnodup := h.nodup
  rw [h.body] at hnodup
  have hfresh : (d.freshLabels frames).Nodup :=
    ((placed_weave frames h.length_ne_zero).nodup_iff.1 hnodup).of_append_left
  rw [freshLabels_eq, Body.newLabels_eq] at hfresh
  -- After as many labels as there are numbers the first one comes again.
  have hle : d.freshLabelCount frames ≤ 4294967296 := by
    refine Nat.not_lt.1 fun hlt => ?_
    have hsame := List.inj_on_of_nodup_map hfresh (x := 0) (y := 4294967296)
      (List.mem_range.2 (by omega)) (List.mem_range.2 hlt) rfl
    cases hsame
  simp only [freshLabelCount] at hle
  omega

/-- The label at which a frame is restored is right before the place where the method goes on. -/
theorem Woven.hasAt_restoreLabel (h : d.Woven owner frames d') (hpoint : point ∈ d.points frames) :
    ∃ q, d'.body.HasAt q [.label point.restoreLabel] ∧ q + 1 = d.resumption frames point ∧
      d.blockStart frames point.position ≤ q ∧ q < d.blockStart frames (point.position + 1) := by
  obtain ⟨-, -, i, hi, -⟩ := of_mem_points hpoint
  obtain ⟨proceed, hsite⟩ := exists_site hpoint
  cases hk : point.kind with
  | suspend =>
      have hat := h.hasAt_suspendBlock hi hsite hk
      have hnext := blockStart_succ_of_suspend hsite hk hi
      rw [ContinuationPoint.suspendBlock] at hat
      rw [ContinuationPoint.suspendBlock, List.length_append, List.length_singleton] at hnext
      refine ⟨_, hat.right, ?_, Nat.le_add_right _ _, by omega⟩
      simp only [resumption, hk]
      omega
  | save =>
      have hat := h.hasAt_saveBlock hi hsite hk
      have hbefore := newPosition_of_save hsite hk
      have hnext := blockStart_succ_of_save hsite hk hi
      rw [ContinuationPoint.saveBlock] at hat
      rw [ContinuationPoint.saveBlock, List.length_append, List.length_singleton] at hbefore
      refine ⟨_, hat.right, ?_, Nat.le_add_right _ _, by omega⟩
      simp only [resumption, hk]
      omega

/-- Where the frame of a point is restored. -/
theorem exists_loadBlock (hpoint : point ∈ d.points frames) {p : Nat} {b : Body}
    (hat : b.HasAt p (d.loadBlocks frames)) :
    ∃ here q, (d.prologueLabels frames).points[point.id]? = some here ∧
      b.HasAt q (point.loadBlock d.slotTable here) ∧ p ≤ q ∧
      q + (point.loadBlock d.slotTable here).length ≤ p + (d.loadBlocks frames).length := by
  obtain ⟨k, hk⟩ := List.getElem?_of_mem hpoint
  obtain ⟨rfl, -, -⟩ := getElem?_points hk
  obtain ⟨hlt, -⟩ := List.getElem?_eq_some_iff.1 hk
  have hlt' : point.id < (d.prologueLabels frames).points.length := by
    rwa [length_prologueLabels]
  have hhere := List.getElem?_eq_getElem hlt'
  generalize (d.prologueLabels frames).points[point.id] = here at hhere
  have hzip : ((d.points frames).zip (d.prologueLabels frames).points)[point.id]? =
      some (point, here) := List.getElem?_zip_eq_some.2 ⟨hk, hhere⟩
  obtain ⟨before, after, hparts⟩ := List.append_of_mem (List.mem_of_getElem? hzip)
  rw [loadBlocks, hparts, List.flatMap_append, List.flatMap_cons, ← List.append_assoc] at hat ⊢
  refine ⟨here, _, hhere, hat.left.right, Nat.le_add_right _ _, ?_⟩
  simp only [List.length_append]
  omega

/-- The positions before a method's own code, but for the one at which a state is taken. -/
def LoadingRegion (d : Method) (frames : Frames) (k : Nat) : Prop :=
  k < (d.prologue frames).length ∧ k ≠ d.dispatch.length + 3

theorem loadingRegion_of_span {p q k : Nat} (hq : q ≤ (d.prologue frames).length)
    (hne : q ≤ d.dispatch.length + 3 ∨ d.dispatch.length + 3 < p) (hk : Span p q k) :
    d.LoadingRegion frames k := by
  obtain ⟨hk, hk'⟩ := hk
  exact ⟨by omega, by omega⟩

theorem length_prologue (d : Method) (frames : Frames) : (d.prologue frames).length =
    d.dispatch.length + (d.loadBlocks frames).length + (d.faults frames).length + 15 := by
  have hpoint : (d.pointDispatch frames).length = 12 := rfl
  have hlength := congrArg List.length (prologue_eq d frames)
  simp only [List.length_append, List.length_cons, List.length_nil, hpoint] at hlength
  omega

namespace Woven

variable {a : Activation} {own : List Value} {c y s l x : Value} {f : ValueFrame}

/-- Code that's passed before and after a state is taken only looks, and has been added. -/
theorem quiet_of_inside (h : d.Resumes a.owner frames a.method) {callers : List Activation}
    {u : CallState} (hu : Inside a (d.LoadingRegion frames) callers u) :
    u.current.Calm ∧ u.Looking := by
  obtain ⟨-, p, f, hcurrent, hp⟩ := hu
  have hcalm : u.current.Calm := hcurrent ▸ Activation.calm_prologue (a := spot a p f) h hp.1 hp.2
  refine ⟨hcalm, fun kind method hi => ?_⟩
  rw [hcurrent] at hi
  exact (h.looks_prologue hp.1 hi).resolve_left hp.2

/-- In loading mode execution gets to the invocation that takes a state. -/
theorem passes_taking (h : d.Woven owner frames d') (ha : a.method = d') (hm : m.Equipped)
    (hown : own.length = d.maxLocals.toNat) (hparam : own[d.capabilitySlot]? = some c)
    (hc : w.Stands n c) (loading : (w.cell n).mode = Capability.loading) :
    m.Passes a (d.LoadingRegion frames) 0 (⟨own ++ [y, s, l, x], []⟩, w) (d.dispatch.length + 3)
      (⟨own ++ [c, s, l, x], [c]⟩, w) := by
  subst ha
  have hsize := length_prologue d frames
  have hat := h.hasAt_prologue
  rw [prologue_eq] at hat
  have hcode := hat.right.tail.left.tail
  rw [Nat.zero_add] at hcode
  have hload : a.method.body.HasAt (d.dispatch.length + 2)
      ([loadReference d.slotTable.capability] ++ (d.pointDispatch frames).drop 2) := hcode
  refine ((h.passes_loading rfl hm hown hparam hc loading).mono fun k =>
    loadingRegion_of_span (by omega) (.inl (by omega))).trans ?_
  exact (crosses_loadCapability hm (hown ▸ h.follows) a _ hload.left).mono fun k =>
    loadingRegion_of_span (by simp only [List.length_singleton]; omega) (.inl (by simp))

/-- Once a state has been taken, execution gets to the state's point with the frame that was saved
in it.  Locals of which the analysis knows nothing may differ. -/
theorem passes_restore (h : d.Woven owner frames d') (ha : a.method = d') (hm : m.Equipped)
    (hown : own.length = d.maxLocals.toNat) (hpoint : point ∈ d.points frames) {state : Nat}
    (hstate : w.object? state = some (.state (Int32.ofNat point.id) s l))
    (hrecords : w.Records known point.restored f s l)
    (hlocals : f.locals.length = d.maxLocals.toNat) {r : Nat}
    (hlabel : d'.body.HasAt r [.label point.restoreLabel]) (s₀ l₀ x₀ : Value) :
    ∃ own', m.Passes a (d.LoadingRegion frames) (d.dispatch.length + 4)
        (⟨own ++ [c, s₀, l₀, x₀], [.object state]⟩, w) r
        (⟨own' ++ [c, s, l, .object state], f.stack⟩, w) ∧
      own'.length = d.maxLocals.toNat ∧
      ∀ (k : Nat) (type : FrameValue), point.frame.locals[k]? = some type → type ≠ .top →
        own'[k]? = f.locals[k]? := by
  subst ha
  have ht := hown ▸ h.follows
  have hsize := length_prologue d frames
  have hat := h.hasAt_prologue
  rw [prologue_eq] at hat
  have hcode := hat.right.tail
  rw [Nat.zero_add] at hcode
  obtain ⟨here, q, hhere, hblock, hq, hq'⟩ := exists_loadBlock hpoint hcode.right.tail.left
  have hdispatch : (d.pointDispatch frames).length = 12 := rfl
  rw [hdispatch] at hq hq'
  -- The arrays are taken out of the state, and the switch gets to the code of its point.
  have harrays : m.Crosses ((popState d.slotTable).drop 2)
      (⟨own ++ [c, s₀, l₀, x₀], [.object state]⟩, w) (⟨own ++ [c, s, l, .object state], []⟩, w) :=
    crosses_takeState hm ht hstate
  have htake := (harrays.append (crosses_getPoint hm ht hstate)) a (d.dispatch.length + 4)
    hcode.left.tail.tail.tail
  have hjump : m.Passes a (d.LoadingRegion frames) (d.dispatch.length + 13)
      (⟨own ++ [c, s, l, .object state], [.int (Int32.ofNat point.id)]⟩, w) q
      (⟨own ++ [c, s, l, .object state], []⟩, w) := by
    have hlt : point.id < 2147483648 := by
      have := h.length_points_lt
      obtain ⟨hlt, -⟩ := List.getElem?_eq_some_iff.1 hhere
      rw [length_prologueLabels] at hlt
      omega
    refine .jump hm.unlimited hcode.right.head ⟨by omega, by omega⟩
      (execute_tableSwitch _ _ _ _ _ _) ?_
    rw [tableTarget_ofNat hhere hlt]
    exact Body.position?_of_get? h.nodup hblock.head
  -- That code restores the frame and goes on to the point.
  obtain ⟨own', hrestore, hlength, hagree⟩ := crosses_loadFrame (c := c) (x := .object state) hm ht
    (by have := h.room; omega) hrecords (hlocals.trans hown.symm)
  have hparts : point.loadBlock d.slotTable here =
      ([.label here] ++ loadFrame d.slotTable point.restored) ++ [.goto point.restoreLabel] := by
    simp [ContinuationPoint.loadBlock, loadFrame, ContinuationPoint.restored]
  rw [hparts, List.length_append, List.length_singleton] at hq'
  rw [hparts] at hblock
  have hframe := ((Crosses.label hm.unlimited here _).append hrestore) a q hblock.left
  have hgoto : m.Passes a (d.LoadingRegion frames) _
      (⟨own' ++ [c, s, l, .object state], f.stack⟩, w) r
      (⟨own' ++ [c, s, l, .object state], f.stack⟩, w) :=
    .jump hm.unlimited hblock.right.head ⟨by omega, by omega⟩ rfl
      (Body.position?_of_get? h.nodup hlabel.head)
  have hlast : ((popState d.slotTable).drop 2 ++
      [loadReference d.slotTable.scratch, .invoke .virtual Capability.getPoint]).length = 9 := rfl
  rw [hlast] at htake
  refine ⟨own', ?_, hlength.trans hown, hagree⟩
  exact ((htake.mono fun k => loadingRegion_of_span (by omega) (.inr (by omega))).trans hjump).trans
    ((hframe.mono fun k => loadingRegion_of_span (by omega) (.inr (by omega))).trans hgoto)

/-- The label at which a frame is restored has been added. -/
theorem calm_restoreLabel (h : d.Resumes a.owner frames a.method) (hpoint : point ∈ d.points frames)
    {r : Nat} (hr : a.method.body.HasAt r [.label point.restoreLabel])
    (hposition : r = a.position) (hnext : r + 1 = d.resumption frames point)
    (hblock : d.blockStart frames point.position ≤ r)
    (hblock' : r < d.blockStart frames (point.position + 1)) : a.Calm := by
  subst hposition
  refine Activation.calm_block h hblock hblock' (fun hsurvives heq => ?_) hr
    (by simp [Instruction.invoked?]) (Nat.le_refl _) (by simp)
  obtain ⟨proceed, hsite⟩ := exists_site hpoint
  have hkind := hsurvives point proceed hsite
  cases hk : point.kind with
  | suspend => exact hkind hk
  | save =>
      simp only [resumption, hk] at hnext
      omega

end Woven

/-- A resumable method that's entered in loading mode takes its state. -/
theorem Resumes.takes_state (h : d.Resumes owner frames d') (hm : m.Equipped) {own : List Value}
    {c : Value} (hown : own.length = d.maxLocals.toNat) (hparam : own[d.capabilitySlot]? = some c)
    (hc : w.Stands n c) (loading : (w.cell n).mode = Capability.loading) {state : Nat}
    {rest : List Nat} (hstates : (w.cell n).states = state :: rest) (callers : List Activation)
    (executed : Nat) :
    ∃ trail executed', m.Advances ⟨w, executed,
          ⟨owner, d', 0, ⟨own ++ [.null, .null, .null, .null], []⟩⟩, callers⟩ trail
        ⟨w.popped n, executed', ⟨owner, d', d.dispatch.length + 4,
          ⟨own ++ [c, .null, .null, .null], [.object state]⟩⟩, callers⟩ ∧
      (∀ u ∈ trail, u.current.Added) ∧ pops n trail = [⟨state, owner, d', callers.length⟩] ∧
      ∀ u ∈ trail, u.world.capabilities = w.capabilities := by
  let a : Activation := ⟨owner, d', 0, ⟨own ++ [.null, .null, .null, .null], []⟩⟩
  -- Up to the invocation that takes the state.
  obtain ⟨trail, executed', hadvances, hinside⟩ := h.passes_taking (a := a) (y := .null)
    (s := .null) (l := .null) (x := .null) rfl hm hown hparam hc loading callers executed
  have hquiet := fun u hu => Woven.quiet_of_inside (a := a) h (hinside u hu)
  -- The invocation.
  have hinvoke : d'.body.get? (d.dispatch.length + 3) =
      some (.invoke .virtual Capability.popState) := by
    have hat := h.hasAt_prologue
    rw [prologue_eq] at hat
    have hcode := hat.right.tail.left.tail
    rw [Nat.zero_add] at hcode
    exact hcode.tail.head
  have hexecute : ValueFrame.execute w ⟨own ++ [c, .null, .null, .null], [c]⟩
      (.invoke .virtual Capability.popState) =
        .ok (.call .virtual Capability.popState [c], ⟨own ++ [c, .null, .null, .null], []⟩, w) := rfl
  have hnative : Library.native Library.popState w [c] =
      (.ok (some (.object state)), w.popped n) := by
    simp only [Library.native, popState_of_states hc hstates]
  have hnext := step_library (a := a) (x := (⟨own ++ [c, .null, .null, .null], [c]⟩, w)) hm hinvoke
    hexecute lookup_popState (by simp [not_isNull_of_stands hc]) hnative callers executed'
  let taking : CallState := ⟨w, executed', spot a (d.dispatch.length + 3)
    ⟨own ++ [c, .null, .null, .null], [c]⟩, callers⟩
  have hcall : taking.invocation? = some (.virtual, Capability.popState, [c]) := by
    simp [invocation?, taking, spot, a, hinvoke, hexecute]
  have hpop : taking.pop? n = some ⟨state, owner, d', callers.length⟩ :=
    pop?_of_invocation? hcall hc hstates
  refine ⟨trail ++ [taking], executed' + 1, hadvances.trans (.one hnext), fun u hu => ?_, ?_,
    fun u hu => ?_⟩
  · rcases List.mem_append.1 hu with hu | hu
    · exact (hquiet u hu).1.added
    · obtain rfl := List.mem_singleton.1 hu
      have hsize := length_prologue d frames
      exact ⟨d, frames, Activation.addedTo_prologue h (by
        rw [blockStart_zero]
        dsimp only [taking, spot]
        omega)⟩
  · rw [pops_append, (shifts_of_looking fun u hu => (hquiet u hu).2).2, List.nil_append]
    simp [pops, hpop]
  · rcases List.mem_append.1 hu with hu | hu
    · exact (hadvances.capabilities hm fun u hu => (hquiet u hu).2).2 u hu
    · obtain rfl := List.mem_singleton.1 hu
      rfl

/-- Once it has taken the state it gets the frame back, and goes on at the state's point. -/
theorem Resumes.restores (h : d.Resumes owner frames d') (hm : m.Equipped) {own : List Value}
    {c : Value} (hown : own.length = d.maxLocals.toNat) (hpoint : point ∈ d.points frames)
    {state : Nat} {s l : Value}
    (hstate : w.object? state = some (.state (Int32.ofNat point.id) s l)) {f : ValueFrame}
    (hrecords : w.Records known point.restored f s l)
    (hlocals : f.locals.length = d.maxLocals.toNat) (callers : List Activation) (executed : Nat) :
    ∃ own' trail executed', m.Advances
        ⟨w, executed, ⟨owner, d', d.dispatch.length + 4,
          ⟨own ++ [c, .null, .null, .null], [.object state]⟩⟩, callers⟩ trail
        ⟨w, executed', ⟨owner, d', d.resumption frames point,
          ValueFrame.extend ⟨own', f.stack⟩ [c, s, l, .object state]⟩, callers⟩ ∧
      (∀ u ∈ trail, u.current.Calm ∧ u.Looking) ∧ own'.length = d.maxLocals.toNat ∧
      ∀ (k : Nat) (type : FrameValue), point.frame.locals[k]? = some type → type ≠ .top →
        own'[k]? = f.locals[k]? := by
  let a : Activation := ⟨owner, d', 0, ⟨own ++ [.null, .null, .null, .null], []⟩⟩
  obtain ⟨r, hlabel, hresumption, hr, hr'⟩ := h.hasAt_restoreLabel hpoint
  obtain ⟨own', hrestore, hlength', hagree⟩ := h.passes_restore (a := a) (c := c) rfl hm hown
    hpoint hstate hrecords hlocals hlabel .null .null .null
  obtain ⟨trail₁, executed₁, hadvances₁, hinside₁⟩ := hrestore callers executed
  obtain ⟨trail₂, executed₂, hadvances₂, hinside₂⟩ := Crosses.label hm.unlimited point.restoreLabel
    (⟨own' ++ [c, s, l, .object state], f.stack⟩, w) a r hlabel callers executed₁
  have hquiet₂ (u : CallState) (hu : u ∈ trail₂) : u.current.Calm ∧ u.Looking := by
    obtain ⟨-, p, f, hcurrent, hp, hp'⟩ := hinside₂ u hu
    obtain rfl : p = r := by simp only [List.length_singleton] at hp'; omega
    refine ⟨hcurrent ▸ Woven.calm_restoreLabel (a := spot a p f) h hpoint hlabel rfl hresumption
      hr hr', fun kind method hi => ?_⟩
    rw [hcurrent] at hi
    exact absurd (hlabel.head.symm.trans hi) (by simp)
  have hadvances := hadvances₁.trans hadvances₂
  simp only [List.length_singleton, hresumption] at hadvances
  exact ⟨own', trail₁ ++ trail₂, executed₂, hadvances, fun u hu => (List.mem_append.1 hu).elim
    (fun hu => Woven.quiet_of_inside (a := a) h (hinside₁ u hu)) (hquiet₂ u), hlength', hagree⟩

/-- A resumable method that's entered in loading mode takes its state, gets the frame back and goes
on at the state's point. -/
theorem Resumes.takes (h : d.Resumes owner frames d') (hm : m.Equipped) {args : List Value}
    {c : Value} (hroom : (ValueFrame.entry args 0).locals.length + 4 ≤ d'.maxLocals.toNat)
    (hc : w.Stands n c)
    (hslot : (ValueFrame.entry args d'.maxLocals.toNat).locals[d'.capabilitySlot]? = some c)
    (loading : (w.cell n).mode = Capability.loading) {state : Nat} {rest : List Nat}
    (hstates : (w.cell n).states = state :: rest) (hpoint : point ∈ d.points frames) {s l : Value}
    (hstate : w.object? state = some (.state (Int32.ofNat point.id) s l)) {f : ValueFrame}
    (hrecords : w.Records known point.restored f s l)
    (hlocals : f.locals.length = d.maxLocals.toNat) (callers : List Activation) (executed : Nat) :
    ∃ own before after executed', m.Takes n
        ⟨w, executed, ⟨owner, d', 0, .entry args d'.maxLocals.toNat⟩, callers⟩
        ⟨state, owner, d', callers.length⟩
        ⟨w.popped n, executed', ⟨owner, d', d.resumption frames point,
          ValueFrame.extend ⟨own, f.stack⟩ [c, s, l, .object state]⟩, callers⟩ before after ∧
      own.length = d.maxLocals.toNat ∧
      ∀ (k : Nat) (type : FrameValue), point.frame.locals[k]? = some type → type ≠ .top →
        own[k]? = f.locals[k]? := by
  have hlength : (ValueFrame.entry args d.maxLocals.toNat).locals.length = d.maxLocals.toNat := by
    have := h.maxLocals
    rw [ValueFrame.length_entry] at hroom ⊢
    omega
  obtain ⟨hentry, hparam⟩ := h.entry_eq_append hlength hc hslot
  rw [hentry]
  generalize ValueFrame.locals _ = own at hlength hparam
  obtain ⟨before, executed₁, htaking, hadded, htakes, hunchanged⟩ :=
    h.takes_state hm hlength hparam hc loading hstates callers executed
  obtain ⟨own', after, executed₂, hrestoring, hquiet, hlength', hagree⟩ := h.restores (c := c) hm
    hlength hpoint (w := w.popped n) hstate (hrecords.spares (World.spares_popped known w n)) hlocals
    callers executed₁
  exact ⟨own', before, after, executed₂, ⟨htaking.trans hrestoring,
    fun u hu => (List.mem_append.1 hu).elim (hadded u) fun hu => (hquiet u hu).1.added, htakes,
    pops_of_calm fun u hu => (hquiet u hu).1, hunchanged,
    (hrestoring.capabilities hm fun u hu => (hquiet u hu).2).2⟩, hlength', hagree⟩

end Method

end Resumable
