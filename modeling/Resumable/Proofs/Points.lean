import Resumable.Proofs.InstrumentedUnits
import Resumable.Proofs.NewLabels
import Resumable.Proofs.Unwinding

/-!
# Points, their numbers and their places

A method's continuation points are the invocations that may suspend it, as far as execution may get
to them.  They're numbered without gaps.  A saved state tells of its point by the number alone, so
all that the resumable method does with a number has to belong to the same point: the number that's
pushed around the point's position leads, through the switch at the method's start, to the code that
restores the point's frame, and from there back to that position.  The label that it goes back to
must not be one of the body's own, which is up to the body's counter.
-/

namespace Resumable

/-- True if a point of the kind is where the instruction is, unless execution can't get there. -/
def PointKind.Marks : PointKind → Instruction → Prop
  | suspend, i => i = .invoke .virtual Capability.suspend
  | save, i => ∃ how method, i = .invoke how method ∧ method.type.isEligible

/-- True if a place comes before another one in the order in which points are numbered. -/
def PointKind.Precedes (place place' : PointKind × Nat) : Prop :=
  (place.1 = place'.1 ∧ place.2 < place'.2) ∨ (place.1 = suspend ∧ place'.1 = save)

namespace Body

/-- True if these are the points of a body with the given frames. -/
structure Located (b : Body) (frames : Frames) (returns : Option ValueType)
    (points : List ContinuationPoint) : Prop where
  found : ∀ kind p f, (∃ point ∈ points, point.kind = kind ∧ point.position = p ∧ point.frame = f) ↔
    frames.at? p = some f ∧ ∃ i, b.get? p = some i ∧ kind.Marks i
  once : (points.map (·.position)).Nodup
  numbered : points.map (·.id) = List.range points.length
  ordered : (points.map fun point => (point.kind, point.position)).Pairwise PointKind.Precedes
  returns : ∀ point ∈ points, point.returns = returns

variable {b : Body} {frames : Frames}

theorem marks_suspend {i : Instruction} : PointKind.suspend.Marks i ↔ i.isSuspend := by
  constructor
  · rintro rfl
    rfl
  · exact eq_invoke_of_isSuspend

theorem marks_save {i : Instruction} : PointKind.save.Marks i ↔ i.isSave := by
  constructor
  · rintro ⟨how, method, rfl, h⟩
    exact h
  · intro h
    cases i with
    | invoke how method => exact ⟨how, method, rfl, h⟩
    | _ => cases h

theorem ordered_pointPlaces (b : Body) (frames : Frames) :
    ((b.pointPlaces frames).map fun place => (place.1, place.2.1)).Pairwise
      PointKind.Precedes := by
  refine (List.pairwise_append.2 ⟨?_, ?_, ?_⟩).sublist (map_pointPlaces_sublist b frames)
  · exact List.pairwise_map.2 ((sorted_positionsFrom ..).imp fun h => .inl ⟨rfl, h⟩)
  · exact List.pairwise_map.2 ((sorted_positionsFrom ..).imp fun h => .inl ⟨rfl, h⟩)
  · intro place hplace place' hplace'
    obtain ⟨p, -, rfl⟩ := List.mem_map.1 hplace
    obtain ⟨p', -, rfl⟩ := List.mem_map.1 hplace'
    exact .inr ⟨rfl, rfl⟩

/-- The labels that a body uses have their places in it, if its labels are in order. -/
theorem exists_place_of_used {l : Label} (h : ∃ places, b.labelPositions = .ok places)
    (hl : l ∈ b.used) : ∃ p, b.get? p = some (.label l) := by
  have hplaced : l ∈ placed b.instructions := by
    obtain ⟨i, hi, hl⟩ := List.mem_flatMap.1 hl
    rcases List.mem_append.1 hl with hl | hl
    · exact List.mem_filterMap.2 ⟨i, hi, Option.mem_toList.1 hl⟩
    · exact (labelPositions_eq_ok.1 h).2 i hi l hl
  obtain ⟨i, hi, hl⟩ := List.mem_filterMap.1 hplaced
  obtain rfl := placed?_eq_some.1 hl
  exact List.mem_iff_getElem?.1 hi

end Body

namespace Method

variable {m : Method} {frames : Frames} {point : ContinuationPoint} {owner : String}

theorem located_points (m : Method) (frames : Frames) :
    m.body.Located frames m.type.returns (m.points frames) where
  found kind p f := by
    have hmem : (∃ point ∈ m.points frames, point.kind = kind ∧ point.position = p ∧
        point.frame = f) ↔ (kind, p, f) ∈ m.body.pointPlaces frames := by
      rw [← map_points, List.mem_map]
      simp only [Prod.mk.injEq]
    rw [hmem, Body.mem_pointPlaces]
    cases kind with
    | suspend => simp only [Body.marks_suspend]
    | save => simp only [Body.marks_save]
  once := nodup_positions m frames
  numbered := by
    refine List.ext_getElem (by simp) fun k h₁ h₂ => ?_
    rw [List.getElem_map, List.getElem_range]
    exact (getElem?_points (List.getElem?_eq_getElem _)).1
  ordered := by
    have h := Body.ordered_pointPlaces m.body frames
    rwa [← map_points, List.map_map] at h
  returns point hpoint := (of_mem_points hpoint).2.1

/-- The labels of points are those with the next numbers, and they differ from each other. -/
theorem restoreLabels_of_enough
    (enough : m.body.nextLabel.toNat + (m.points frames).length ≤ 4294967295) :
    ((m.points frames).map (·.restoreLabel)).Nodup ∧
      ∀ l, l ∈ (m.points frames).map (·.restoreLabel) ↔ m.body.nextLabel ≤ l.number ∧
        l.number.toNat < m.body.nextLabel.toNat + (m.points frames).length := by
  rw [length_points] at enough ⊢
  rw [map_restoreLabel]
  exact ⟨Body.nodup_newLabels enough, fun l => Body.mem_newLabels enough⟩

open Snapshot Machine

/-- True if the resumable method `t` keeps the number of a point and its place together.  The code
at the target restores the point's frame and jumps to the point's label.  That label is in what
stands for the instruction at the point's position, and so is the code that pushes the number, which
is the only code there that pushes a state. -/
structure Serves (m t : Method) (frames : Frames) (k : Nat) (point : ContinuationPoint)
    (target : Label) (load restore push : Nat) : Prop where
  placed : t.body.position? target = some load
  loads : t.body.HasAt load
    (.label target :: (loadFrame m.slotTable point.restored ++ [.goto point.restoreLabel]))
  restored : t.body.position? point.restoreLabel = some restore
  restoredThere : m.blockStart frames point.position ≤ restore ∧
    restore < m.blockStart frames (point.position + 1)
  goesOn : point.kind = .suspend → restore + 1 = m.blockStart frames (point.position + 1)
  repeats : point.kind = .save → t.body.get? (restore + 1) = m.body.get? point.position
  pushes : t.body.HasAt push (pushState m.slotTable k)
  pushesThere : m.blockStart frames point.position ≤ push ∧
    push + 6 ≤ m.blockStart frames (point.position + 1)
  pushesOnce : ∀ how p, m.blockStart frames point.position ≤ p →
    p < m.blockStart frames (point.position + 1) →
    t.body.get? p = some (.invoke how Capability.pushState) → p = push + 5

/-- True if a state with the number takes the resumable method to a position, with the frame that
the state holds for the point.  Locals of which the analysis knows nothing may differ. -/
def Restores (m t : Method) (frames : Frames) (k : Nat) (point : ContinuationPoint)
    (restore : Nat) : Prop :=
  ∀ (machine : Machine) (a : Activation) (known : Nat → Prop) (w : World) (f : ValueFrame)
    (own : List Value) (c s l s₀ l₀ x₀ : Value) (state : Nat), machine.Equipped → a.method = t →
    own.length = m.maxLocals.toNat → f.locals.length = m.maxLocals.toNat →
    w.object? state = some (.state (Int32.ofNat k) s l) → w.Records known point.restored f s l →
    ∃ own', machine.Passes a (m.LoadingRegion frames) (m.dispatch.length + 4)
        (⟨own ++ [c, s₀, l₀, x₀], [.object state]⟩, w) restore
        (⟨own' ++ [c, s, l, .object state], f.stack⟩, w) ∧
      own'.length = m.maxLocals.toNat ∧
      ∀ (j : Nat) (type : FrameValue), point.frame.locals[j]? = some type → type ≠ .top →
        own'[j]? = f.locals[j]?

/-- True if the resumable method pushes a state with the number from a position on. -/
def Pushes (m t : Method) (k push : Nat) : Prop :=
  ∀ (machine : Machine) (a : Activation) (w : World) (n : Nat) (own stack : List Value)
    (c s l x : Value), machine.Equipped → a.method = t → own.length = m.maxLocals.toNat →
    w.Stands n c → machine.Passes a (Span push (push + 6)) push (⟨own ++ [c, s, l, x], stack⟩, w)
      (push + 6) (⟨own ++ [c, s, l, x], stack⟩, w.pushed n (Int32.ofNat k) s l)

theorem loadBlock_eq (t : SlotTable) (p : ContinuationPoint) (here : Label) : p.loadBlock t here =
    .label here :: (loadFrame t p.restored ++ [.goto p.restoreLabel]) := by
  simp [ContinuationPoint.loadBlock, loadFrame, ContinuationPoint.restored]

/-- True if the code pushes no state. -/
abbrev PushesNone (code : List Instruction) : Prop := CallsOnly (· ≠ Capability.pushState) code

theorem pushesNone_of_isSave {i : Instruction} (h : i.isSave) : PushesNone [i] := by
  intro j hj how method hcall
  obtain rfl := List.mem_singleton.1 hj
  rintro rfl
  rw [Instruction.isSave, hcall] at h
  cases h

theorem pushesNone_saveBlock (t : SlotTable) (p : ContinuationPoint) :
    PushesNone (p.saveBlock t) := by
  have hbox := NumericKind.box_ne_pushState
  have hunbox (k : NumericKind) : k.unbox ≠ Capability.pushState := by cases k <;> decide
  have hsave : PushesNone (saveStack t p.frame.stack) := callsOnly_saveStack t hbox _
  have hload : PushesNone (loadStack t p.frame.stack) := callsOnly_loadStack t hunbox _
  have hlocals : PushesNone (saveLocals t p.frame.locals) := callsOnly_saveLocals t hbox _
  have hlabel : PushesNone [.label p.restoreLabel] := by simp [Instruction.invoked?]
  simp only [PushesNone, ContinuationPoint.saveBlock, CallsOnly.append_iff]
  exact ⟨⟨⟨hsave, hload⟩, hlocals⟩, hlabel⟩

/-- What a point becomes pushes its number, and pushes no other state. -/
theorem exists_block_parts {i : Instruction} (hpoint : point ∈ m.points frames)
    (hi : m.body.get? point.position = some i) :
    ∃ before after, m.block frames point.position i =
        before ++ (pushState m.slotTable point.id ++ after) ∧
      PushesNone before ∧ PushesNone after := by
  obtain ⟨proceed, hsite⟩ := exists_site hpoint
  obtain ⟨-, -, j, hj, hkind⟩ := of_mem_points hpoint
  obtain rfl : i = j := Option.some.inj (hi.symm.trans hj)
  have hleave : PushesNone (leaveEarly point.returns) := callsOnly_leaveEarly _
  have hlabel (l : Label) : PushesNone [.label l] := by simp [Instruction.invoked?]
  cases hk : point.kind with
  | suspend =>
      have hpop : PushesNone [.pop] := by simp [Instruction.invoked?]
      have hsave : PushesNone (saveFrame m.slotTable point.restored false) :=
        callsOnly_saveFrame m.slotTable NumericKind.box_ne_pushState _
      have hmode : PushesNone (setMode m.slotTable Capability.saving) := by
        simp [setMode, loadReference, Instruction.invoked?, Capability.setMode,
          Capability.pushState]
      refine ⟨[.pop] ++ saveFrame m.slotTable point.restored false,
        setMode m.slotTable Capability.saving ++
          (leaveEarly point.returns ++ [.label point.restoreLabel]), ?_, ?_, ?_⟩
      · simp only [block_of_suspend hsite hk, ContinuationPoint.suspendBlock_eq,
          List.cons_append, List.nil_append]
      · exact CallsOnly.append_iff.2 ⟨hpop, hsave⟩
      · exact CallsOnly.append_iff.2 ⟨hmode, CallsOnly.append_iff.2 ⟨hleave, hlabel _⟩⟩
  | save =>
      rw [hk] at hkind
      have hmode : PushesNone (getMode m.slotTable) := callsOnly_getMode _ (by decide)
      have hlook : PushesNone [.const (.int Capability.saving), .ifCompare .notEqual proceed] := by
        simp [Instruction.invoked?]
      refine ⟨point.saveBlock m.slotTable ++ ([i] ++ (getMode m.slotTable ++
          [.const (.int Capability.saving), .ifCompare .notEqual proceed])),
        leaveEarly point.returns ++ [.label proceed], ?_, ?_, ?_⟩
      · simp only [block_of_save hsite hk, ContinuationPoint.afterSave_eq, List.append_assoc,
            List.cons_append, List.nil_append]
      · refine CallsOnly.append_iff.2 ⟨pushesNone_saveBlock _ _, ?_⟩
        refine CallsOnly.append_iff.2 ⟨pushesNone_of_isSave hkind, ?_⟩
        exact CallsOnly.append_iff.2 ⟨hmode, hlook⟩
      · exact CallsOnly.append_iff.2 ⟨hleave, hlabel _⟩

/-- Code that pushes a number and no other state does so at one position. -/
theorem eq_of_pushes {b : Body} {q p id : Nat} {t : SlotTable} {before after : List Instruction}
    {how : InvokeKind} (hat : b.HasAt q (before ++ (pushState t id ++ after)))
    (hbefore : PushesNone before) (hafter : PushesNone after) (hp : q ≤ p)
    (hp' : p < q + (before ++ (pushState t id ++ after)).length)
    (hi : b.get? p = some (.invoke how Capability.pushState)) : p = q + before.length + 5 := by
  have hmake : PushesNone ((pushState t id).take 5) := by
    simp [pushState, loadReference, pushInt, Instruction.invoked?, Capability.createState,
      Capability.pushState]
  have hparts : pushState t id =
      (pushState t id).take 5 ++ [.invoke .virtual Capability.pushState] := rfl
  have htake : ((pushState t id).take 5).length = 5 := rfl
  have hlength : (pushState t id).length = 6 := rfl
  rw [List.length_append, List.length_append, hlength] at hp'
  have hpush := hat.right.left
  rw [hparts] at hpush
  by_cases h₁ : p < q + before.length
  · exact absurd rfl (hbefore.get? hat.left hp h₁ hi)
  by_cases h₂ : p < q + before.length + 5
  · exact absurd rfl (hmake.get? hpush.left (by omega) (by omega) hi)
  by_cases h₃ : p < q + before.length + 6
  · omega
  · have hrest := hat.right.right
    rw [hlength] at hrest
    exact absurd rfl (hafter.get? hrest (by omega) (by omega) hi)

namespace Woven

variable {t : Method}

/-- Where the switch on the number of a state is, and the code that it gets to. -/
theorem hasAt_pointSwitch (h : m.Woven owner frames t) :
    t.body.get? (m.dispatch.length + 13) = some (.tableSwitch 0 (m.prologueLabels frames).badPoint
        (m.prologueLabels frames).points) ∧
      t.body.HasAt (m.dispatch.length + 14) (m.loadBlocks frames) := by
  have hat := h.hasAt_prologue
  rw [prologue_eq] at hat
  have hlength : (m.pointDispatch frames).length = 12 := rfl
  have hswitch := hat.right.tail.right
  rw [hlength, Nat.zero_add] at hswitch
  exact ⟨hswitch.head, hswitch.tail.left⟩

/-- A call that may suspend is repeated right after its point's label. -/
theorem get?_after_restoreLabel (h : m.Woven owner frames t) (hpoint : point ∈ m.points frames)
    (hsave : point.kind = .save) {restore : Nat}
    (hrestore : restore + 1 = m.resumption frames point) :
    t.body.get? (restore + 1) = m.body.get? point.position := by
  obtain ⟨-, -, i, hi, -⟩ := of_mem_points hpoint
  obtain ⟨proceed, hsite⟩ := exists_site hpoint
  have hsurvives : m.Survives frames point.position := by
    intro point' proceed' hsite' hsuspend
    obtain ⟨rfl, -⟩ := Prod.mk.inj (Option.some.inj (hsite.symm.trans hsite'))
    rw [hsave] at hsuspend
    cases hsuspend
  have hposition : restore + 1 = m.newPosition frames point.position := by
    rw [hrestore]
    simp only [resumption, hsave]
  rw [hposition, h.body, hi]
  exact get?_newPosition hi hsurvives

/-- A body that uses the label of a point has no resumable form, which would place the label
twice. -/
theorem restoreLabel_not_used (h : m.Woven owner frames t) (hpoint : point ∈ m.points frames) :
    point.restoreLabel ∉ m.body.used := by
  intro hused
  obtain ⟨p, hp⟩ := Body.exists_place_of_used (analyzed_of_analyze h.analyze).labels hused
  have hsurvives : m.Survives frames p := survives_of_isSuspend hp fun hsuspend => by cases hsuspend
  have hstays : t.body.get? (m.newPosition frames p) = some (.label point.restoreLabel) := by
    rw [h.body]
    exact get?_newPosition hp hsurvives
  obtain ⟨restore, hlabel, -, hafter, hbefore⟩ := h.hasAt_restoreLabel hpoint
  have hsame : restore = m.newPosition frames p :=
    Option.some.inj ((Body.position?_of_get? h.nodup hlabel.head).symm.trans
      (Body.position?_of_get? h.nodup hstays))
  obtain rfl := eq_of_newPosition hafter hbefore hp hsurvives hsame
  -- There's an invocation at a point's position, and no label.
  obtain ⟨-, -, i, hi, hkind⟩ := of_mem_points hpoint
  obtain rfl := Option.some.inj (hp.symm.trans hi)
  cases hk : point.kind <;> rw [hk] at hkind <;> cases hkind

/-- The resumable method restores a point by the number that it pushes around the point. -/
theorem exists_serves (h : m.Woven owner frames t) {k : Nat}
    (hk : (m.points frames)[k]? = some point) (otherwise : Label) :
    ∃ target load restore push, (m.prologueLabels frames).points[k]? = some target ∧
      tableTarget 0 (Int32.ofNat k) otherwise (m.prologueLabels frames).points = target ∧
      m.Serves t frames k point target load restore push ∧ m.Restores t frames k point restore ∧
      m.Pushes t k push := by
  obtain ⟨rfl, -, -⟩ := getElem?_points hk
  have hpoint : point ∈ m.points frames := List.mem_of_getElem? hk
  obtain ⟨target, load, htarget, hload, -, -⟩ := exists_loadBlock hpoint h.hasAt_pointSwitch.2
  rw [loadBlock_eq] at hload
  obtain ⟨restore, hlabel, hresumption, hafter, hbefore⟩ := h.hasAt_restoreLabel hpoint
  obtain ⟨-, -, i, hi, -⟩ := of_mem_points hpoint
  obtain ⟨before, after, hparts, hnone, hnone'⟩ := exists_block_parts hpoint hi
  have hblock := h.hasAt_block hi
  have hnext := @blockStart_succ _ frames _ _ hi
  rw [hparts] at hblock hnext
  have hpush := hblock.right.left
  have hlt : point.id < 2147483648 := by
    have hpoints := h.length_points_lt
    obtain ⟨hid, -⟩ := List.getElem?_eq_some_iff.1 hk
    omega
  refine ⟨target, load, restore, m.blockStart frames point.position + before.length, htarget,
    tableTarget_ofNat htarget hlt, ?_, ?_, ?_⟩
  · exact {
      placed := Body.position?_of_get? h.nodup hload.head
      loads := hload
      restored := Body.position?_of_get? h.nodup hlabel.head
      restoredThere := ⟨hafter, hbefore⟩
      goesOn := fun hsuspend => by simpa only [resumption, hsuspend] using hresumption
      repeats := fun hsave => h.get?_after_restoreLabel hpoint hsave hresumption
      pushes := hpush
      pushesThere := by
        have hsix : (pushState m.slotTable point.id).length = 6 := rfl
        rw [List.length_append, List.length_append, hsix] at hnext
        exact ⟨Nat.le_add_right _ _, by omega⟩
      pushesOnce := fun how p hp hp' hinvoke =>
        eq_of_pushes hblock hnone hnone' hp (hnext ▸ hp') hinvoke }
  · intro machine a known w f own c s l s₀ l₀ x₀ state hm ha hown hlocals hstate hrecords
    exact h.passes_restore ha hm hown hpoint hstate hrecords hlocals hlabel s₀ l₀ x₀
  · intro machine a w n own stack c s l x hm ha hown hc callers executed
    subst ha
    obtain ⟨trail, executed', hadvances, hinside, -⟩ := advances_pushing (s := s) (l := l) (x := x)
      hm (hown ▸ h.follows) hc hpush stack callers executed
    exact ⟨trail, executed', hadvances, hinside⟩

end Woven

/-- The code of a transformed method is made of the frames that the analysis finds. -/
theorem woven_of_analyze {t : Method} (analyzed : m.analyze owner = .ok frames)
    (ht : m.transform owner = .ok t) : m.Woven owner frames t := by
  obtain ⟨haccess, -⟩ := access_of_transform ht
  obtain ⟨frames', hwoven⟩ : ∃ frames, m.Woven owner frames t :=
    woven_of_transform ht (congrArg AccessFlags.isStatic haccess)
  obtain rfl : frames = frames' := Except.ok.inj (analyzed.symm.trans hwoven.analyze)
  exact hwoven

/-- The points of a method that can be analyzed are the invocations with which it suspends itself
and those of methods that may suspend, as far as execution may get to them.  They're numbered from
zero, those of the first kind before those of the second and each kind by position.  As long as
there are numbers for labels the points have the labels with the next numbers, each its own.  The
body doesn't use them, unless a change has brought them in ahead of time, in which case there's no
resumable method.  A resumable method has a target for each number, in the same order, and serves
every point by its number. -/
theorem points_exact (analyzed : m.analyze owner = .ok frames) :
    m.body.Located frames m.type.returns (m.body.locate frames m.type.returns).1 ∧
    (m.body.nextLabel.toNat + (m.points frames).length ≤ 4294967295 →
      ((m.points frames).map (·.restoreLabel)).Nodup ∧
      (∀ l, l ∈ (m.points frames).map (·.restoreLabel) ↔ m.body.nextLabel ≤ l.number ∧
        l.number.toNat < m.body.nextLabel.toNat + (m.points frames).length) ∧
      ∀ is changes, m.body = (Body.ofList is).changed changes →
        (∀ l ∈ (Body.ofList is).used ++ (Body.ofList is).given changes,
          l.number.toNat < 4294967295) →
        ∀ l ∈ m.body.used, l ∉ (Body.ofList is).ahead changes →
          l ∉ (m.points frames).map (·.restoreLabel)) ∧
    ∀ t, m.transform owner = .ok t →
      (∀ l ∈ m.body.used, l ∉ (m.points frames).map (·.restoreLabel)) ∧ ∃ otherwise targets,
      t.body.get? (m.dispatch.length + 13) = some (.tableSwitch 0 otherwise targets) ∧
      targets.length = (m.points frames).length ∧
      t.body.HasAt (m.dispatch.length + 14) (((m.points frames).zip targets).flatMap
        fun block => block.1.loadBlock m.slotTable block.2) ∧
      ∀ k point, (m.points frames)[k]? = some point → ∃ target load restore push,
        targets[k]? = some target ∧ tableTarget 0 (Int32.ofNat k) otherwise targets = target ∧
        m.Serves t frames k point target load restore push ∧
        m.Restores t frames k point restore ∧ m.Pushes t k push := by
  refine ⟨located_points m frames, fun enough => ?_, fun t ht => ?_⟩
  · obtain ⟨hnodup, hlabels⟩ := restoreLabels_of_enough enough
    refine ⟨hnodup, hlabels, ?_⟩
    intro is changes hbody numbers l hl hahead hmem
    rw [List.forall_mem_append] at numbers
    have hsupplies := (Body.supplies_ofList numbers.1).changed numbers.2
    rw [← hbody, List.nil_append, List.nil_append] at hsupplies
    have hpassed : l.number < m.body.nextLabel := (hsupplies.used l hl).resolve_right hahead
    exact absurd hpassed (UInt32.not_lt.2 ((hlabels l).1 hmem).1)
  · have hwoven := woven_of_analyze analyzed ht
    obtain ⟨hswitch, hloads⟩ := hwoven.hasAt_pointSwitch
    refine ⟨fun l hl hmem => ?_, _, _, hswitch, length_prologueLabels m frames, hloads,
      fun k point hk => hwoven.exists_serves hk _⟩
    obtain ⟨point, hpoint, rfl⟩ := List.mem_map.1 hmem
    exact hwoven.restoreLabel_not_used hpoint hl

/-- Calls a method that may suspend and then suspends itself.  What it would do after that can't be
reached. -/
def dozer : Method where
  name := "doze"
  type := ⟨[Capability.type], none⟩
  access := .static
  maxStack := 1
  maxLocals := 1
  body := .ofList [.load .reference 0, .invoke .static ⟨"Demo", "doze", ⟨[Capability.type], none⟩⟩,
    .load .reference 0, .invoke .virtual Capability.suspend, .leave none,
    .load .reference 0, .invoke .virtual Capability.suspend, .leave none]
  stackMap := []

def dozerFrames : Frames :=
  [sleeperFrame [], sleeperFrame [capabilityValue], sleeperFrame [], sleeperFrame [capabilityValue],
    sleeperFrame [], none, none, none]

theorem analyze_dozer : dozer.analyze "Demo" = .ok dozerFrames := by
  have hlabels : dozer.body.labelPositions = .ok [] := rfl
  have hentry : dozer.entryFrame "Demo" = .ok ⟨[capabilityValue], []⟩ := rfl
  have hlength : ¬ dozer.body.length = 0 := by decide
  simp only [analyze, hlabels, hentry, hlength, if_false]
  rw [Progress.run_of_follow rfl (t := ⟨dozerFrames.take 2 ++ List.replicate 6 none, [1]⟩) rfl,
    Progress.run_of_follow rfl (t := ⟨dozerFrames.take 3 ++ List.replicate 5 none, [2]⟩) rfl,
    Progress.run_of_follow rfl (t := ⟨dozerFrames.take 4 ++ List.replicate 4 none, [3]⟩) rfl,
    Progress.run_of_follow rfl (t := ⟨dozerFrames, [4]⟩) rfl,
    Progress.run_of_follow rfl (t := ⟨dozerFrames, []⟩) rfl]
  rw [Progress.run]

theorem exists_transform_dozer : ∃ t, dozer.transform "Demo" = .ok t := by
  have hlength : 2 * (dozer.weave dozerFrames).body.length ≤ maxSlots := by
    rw [length_weave (by decide)]
    simp only [blockStart]
    decide
  have hcounter : ∀ l, .label l ∈ dozer.body.instructions → l.number < dozer.body.nextLabel := by
    simp [dozer, Body.ofList]
  obtain ⟨t, -, ht, -⟩ := transform_of_length (by decide) (by decide) analyze_dozer (by decide)
    hcounter (by decide) hlength
  exact ⟨t, ht⟩

/-- Where the dozer suspends itself. -/
def dozing : ContinuationPoint :=
  ⟨0, .suspend, 3, ⟨[capabilityValue], [capabilityValue]⟩, ⟨0⟩, none⟩

/-- Where the dozer calls another method. -/
def calling : ContinuationPoint := ⟨1, .save, 1, ⟨[capabilityValue], [capabilityValue]⟩, ⟨1⟩, none⟩

/-- A capability, and a state of the dozer with its arrays. -/
def afterDozing : World :=
  ⟨#[.capability 0, .array .root #[], .array .root #[.object 0], .state 0 (.object 1) (.object 2)],
    #[.initial], []⟩

theorem records_afterDozing : afterDozing.Records (· = 0) dozing.restored ⟨[.object 0], []⟩
    (.object 1) (.object 2) := by
  have hmeets : ValueFrame.Meets afterDozing ⟨[.object 0], []⟩ dozing.restored :=
    ⟨.nil, .cons ⟨rfl, rfl⟩ .nil⟩
  have hstack : afterDozing.Saved (· = 0) [] [] 1 := by
    refine ⟨by decide, #[], rfl, rfl, by decide, ?_, ?_⟩ <;> intro k type htype <;> cases htype
  have hlocals : afterDozing.Saved (· = 0) [capabilityValue] [.object 0] 2 := by
    refine ⟨by decide, #[.object 0], rfl, rfl, by decide, ?_, ?_⟩ <;> intro k type htype
    · obtain rfl : k = 0 := by simpa using (List.getElem?_eq_some_iff.1 htype).1
      exact fun _ _ => ⟨.object 0, .object 0, rfl, rfl, rfl⟩
    · have hmem := List.mem_of_getElem? htype
      obtain rfl := List.mem_singleton.1 hmem
      rintro (h | h) <;> cases h
  exact ⟨hmeets, ⟨1, rfl, hstack⟩, ⟨2, rfl, hlocals⟩⟩

/-- A frame of the dozer's resumable form, with what's in the added slots but for the capability. -/
def dozerFrame (stackArray localsArray scratch : Value) (stack : List Value) : ValueFrame :=
  ⟨[.object 0, .object 0, stackArray, localsArray, scratch], stack⟩

/-- The dozer suspends itself at its first point, where it pushes a state of that point, and such a
state leads back to it.  The call before is its other point. -/
theorem points_exact_dozer : ∃ t target load restore push,
    dozer.transform "Demo" = .ok t ∧ dozer.points dozerFrames = [dozing, calling] ∧
      dozing.restoreLabel ∉ dozer.body.used ∧
      dozer.Serves t dozerFrames 0 dozing target load restore push ∧
      (Machine.new .standard).Passes ⟨"Demo", t, 0, ⟨[], []⟩⟩ (Span push (push + 6)) push
        (dozerFrame (.object 1) (.object 2) .null [], afterDozing) (push + 6)
        (dozerFrame (.object 1) (.object 2) .null [],
          afterDozing.pushed 0 0 (.object 1) (.object 2)) ∧
      (Machine.new .standard).Passes ⟨"Demo", t, 0, ⟨[], []⟩⟩ (dozer.LoadingRegion dozerFrames)
        (dozer.dispatch.length + 4)
        (dozerFrame .null .null (.object 3) [.object 3], afterDozing) restore
        (dozerFrame (.object 1) (.object 2) (.object 3) [], afterDozing) := by
  obtain ⟨t, ht⟩ := exists_transform_dozer
  have hpoints : dozer.points dozerFrames = [dozing, calling] := by decide
  have hdozing : (dozer.points dozerFrames)[0]? = some dozing := by
    rw [hpoints]
    rfl
  have hequipped : (Machine.new .standard).Equipped := ⟨rfl, fun _ _ h => h⟩
  obtain ⟨-, hlabels, hserves⟩ := points_exact analyze_dozer
  obtain ⟨-, -, hunused⟩ := hlabels (by decide)
  obtain ⟨-, otherwise, targets, -, -, -, hpoint⟩ := hserves t ht
  obtain ⟨target, load, restore, push, -, -, hserve, hrestores, hpushes⟩ := hpoint 0 dozing hdozing
  refine ⟨t, target, load, restore, push, ht, hpoints, ?_, hserve, ?_, ?_⟩
  · intro hused
    exact hunused dozer.body.instructions [] rfl (by decide) _ hused (by decide)
      (List.mem_map_of_mem (List.mem_of_getElem? hdozing))
  · exact hpushes _ ⟨"Demo", t, 0, ⟨[], []⟩⟩ afterDozing 0 [.object 0] [] (.object 0) (.object 1)
      (.object 2) .null hequipped rfl rfl ⟨0, rfl, rfl⟩
  · obtain ⟨own, hpasses, hlength, hown⟩ := hrestores _ ⟨"Demo", t, 0, ⟨[], []⟩⟩ (· = 0) afterDozing
      ⟨[.object 0], []⟩ [.object 0] (.object 0) (.object 1) (.object 2) .null .null (.object 3) 3
      hequipped rfl rfl rfl rfl records_afterDozing
    obtain ⟨v, rfl⟩ := List.length_eq_one_iff.1 hlength
    have hfirst : some v = some (.object 0) := hown 0 capabilityValue rfl (by decide)
    obtain rfl := Option.some.inj hfirst
    exact hpasses

/-- Suspends itself once.  The label at its end was pushed when its number was still to come. -/
def hasty : Method :=
  { dozer with
    body := (Body.ofList [.load .reference 0, .invoke .virtual Capability.suspend,
      .leave none]).push (.label ⟨0⟩) }

theorem analyze_hasty : hasty.analyze "Demo" =
    .ok [sleeperFrame [], sleeperFrame [capabilityValue], sleeperFrame [], none] := by
  have hlabels : hasty.body.labelPositions = .ok [(⟨0⟩, 3)] := rfl
  have hentry : hasty.entryFrame "Demo" = .ok ⟨[capabilityValue], []⟩ := rfl
  have hlength : ¬ hasty.body.length = 0 := by decide
  simp only [analyze, hlabels, hentry, hlength, if_false]
  rw [Progress.run_of_follow rfl
      (t := ⟨[sleeperFrame [], sleeperFrame [capabilityValue], none, none], [1]⟩) rfl,
    Progress.run_of_follow rfl
      (t := ⟨[sleeperFrame [], sleeperFrame [capabilityValue], sleeperFrame [], none], [2]⟩) rfl,
    Progress.run_of_follow rfl
      (t := ⟨[sleeperFrame [], sleeperFrame [capabilityValue], sleeperFrame [], none], []⟩) rfl]
  rw [Progress.run]

/-- The point gets the label that was pushed ahead of time, although the body uses it.  So there's no
resumable form. -/
theorem restoreLabel_collides : ∃ frames, hasty.analyze "Demo" = .ok frames ∧
    (∃ point ∈ hasty.points frames, point.restoreLabel ∈ hasty.body.used) ∧
      ∀ t, hasty.transform "Demo" ≠ .ok t := by
  have hpoint : ∃ point ∈ hasty.points
      [sleeperFrame [], sleeperFrame [capabilityValue], sleeperFrame [], none],
      point.restoreLabel ∈ hasty.body.used := by decide
  refine ⟨_, analyze_hasty, hpoint, fun t ht => ?_⟩
  obtain ⟨point, hmem, hused⟩ := hpoint
  exact (woven_of_analyze analyze_hasty ht).restoreLabel_not_used hmem hused

end Method

end Resumable
