import Resumable.Instrumentation.Transform
import Resumable.Proofs.Labels
import Resumable.Proofs.Splice

/-!
# The layout of resumable methods

A resumable method has its prologue first, and then a block for each instruction of the method that
it was made from: the instruction itself, or what stands in the place of a continuation point.
-/

namespace Resumable

/-- True if the instructions stand in the body from a position on. -/
def Body.HasAt (b : Body) (position : Nat) (code : List Instruction) : Prop :=
  ∃ before after, b.instructions = before ++ code ++ after ∧ before.length = position

namespace Body.HasAt

variable {b : Body} {p : Nat} {c d : List Instruction} {i : Instruction}

theorem left (h : b.HasAt p (c ++ d)) : b.HasAt p c := by
  obtain ⟨before, after, hb, hp⟩ := h
  exact ⟨before, d ++ after, by simp [hb], hp⟩

theorem right (h : b.HasAt p (c ++ d)) : b.HasAt (p + c.length) d := by
  obtain ⟨before, after, hb, hp⟩ := h
  exact ⟨before ++ c, after, by simp [hb], by simp [hp]⟩

theorem head (h : b.HasAt p (i :: c)) : b.get? p = some i := by
  obtain ⟨before, after, hb, rfl⟩ := h
  simp [Body.get?, hb]

theorem tail (h : b.HasAt p (i :: c)) : b.HasAt (p + 1) c :=
  right (c := [i]) (d := c) h

end Body.HasAt

/-- The concatenation of what the members of a list contribute, cut at one of them. -/
theorem flatMap_zipIdx_eq {α β : Type} (f : α × Nat → List β) {l : List α} {p : Nat} {a : α}
    (h : l[p]? = some a) : l.zipIdx.flatMap f =
      (l.take p).zipIdx.flatMap f ++ f (a, p) ++ ((l.drop (p + 1)).zipIdx (p + 1)).flatMap f := by
  obtain ⟨hp, rfl⟩ := List.getElem?_eq_some_iff.1 h
  conv_lhs => rw [← List.take_append_drop p l, List.drop_eq_getElem_cons hp]
  rw [List.zipIdx_append, List.zipIdx_cons]
  simp [Nat.min_eq_left (Nat.le_of_lt hp)]

namespace ContinuationPoint

/-- The edit of a point; a point that calls another method has a label at which it goes on. -/
def edit (t : SlotTable) (p : ContinuationPoint) (proceed : Label) : Edit :=
  match p.kind with
  | .suspend => .replace p.position (p.suspendBlock t)
  | .save => .surround p.position (p.saveBlock t) (p.afterSave t proceed)

/-- The labels at which points that call other methods go on.  For other points any label
will do. -/
def proceedLabels : List ContinuationPoint → Body → List Label
  | [], _ => []
  | p :: points, b =>
    b.newLabel.1 :: proceedLabels points (if p.kind = .save then b.newLabel.2 else b)

theorem length_proceedLabels (points : List ContinuationPoint) (b : Body) :
    (proceedLabels points b).length = points.length := by
  induction points generalizing b with
  | nil => rfl
  | cons p points ih => simp [proceedLabels, ih]

theorem edits_eq (t : SlotTable) (points : List ContinuationPoint) (b : Body) :
    (edits t points b).1 = List.zipWith (edit t) points (proceedLabels points b) := by
  induction points generalizing b with
  | nil => rfl
  | cons p points ih =>
      cases hk : p.kind with
      | suspend => simp [edits, proceedLabels, hk, edit, ih]
      | save => simp [edits, proceedLabels, hk, edit, ih]

theorem instructions_edits (t : SlotTable) (points : List ContinuationPoint) (b : Body) :
    (edits t points b).2.instructions = b.instructions := by
  induction points generalizing b with
  | nil => rfl
  | cons p points ih => cases hk : p.kind <;> simp [edits, hk, ih, Body.newLabel]

/-- The labels of the points that call other methods are new labels. -/
theorem filter_proceedLabels (points : List ContinuationPoint) (b : Body) :
    ((points.zip (proceedLabels points b)).filter (·.1.kind = .save)).map (·.2) =
      (b.newLabels (points.countP (·.kind = .save))).1 := by
  induction points generalizing b with
  | nil => rfl
  | cons p points ih =>
      cases hk : p.kind with
      | suspend => simp [proceedLabels, hk, ih]
      | save =>
          simp only [proceedLabels, List.zip_cons_cons, hk, if_true, List.countP_cons,
            decide_true, List.filter_cons, List.map_cons, ih]
          rfl

/-- What stands before the instruction at the point, if it stays. -/
def before (t : SlotTable) (p : ContinuationPoint) : List Instruction :=
  match p.kind with
  | .suspend => []
  | .save => p.saveBlock t

/-- What a point becomes. -/
def block (t : SlotTable) (p : ContinuationPoint) (proceed : Label) (i : Instruction) :
    List Instruction :=
  match p.kind with
  | .suspend => p.suspendBlock t
  | .save => p.saveBlock t ++ i :: p.afterSave t proceed

theorem replacement_edit (t : SlotTable) (p : ContinuationPoint) (proceed : Label)
    (i : Instruction) : Edit.replacement i [p.edit t proceed] = p.block t proceed i := by
  cases hk : p.kind <;> simp [Edit.replacement, edit, block, hk, Edit.replace, Edit.surround]

end ContinuationPoint

namespace Method

variable (m : Method) (frames : Frames)

/-- The slots of the resumable method's own code. -/
def slotTable : SlotTable := .make m.access m.maxLocals

/-- The continuation points of the method. -/
def points : List ContinuationPoint := (m.body.locate frames m.type.returns).1

/-- The body after the labels of the points have been made. -/
def located : Body := (m.body.locate frames m.type.returns).2

def prologueLabels : PrologueLabels :=
  ((m.located frames).newPrologueLabels (m.points frames).length).1

/-- The points, with the labels at which those that call other methods go on. -/
def sites : List (ContinuationPoint × Label) :=
  (m.points frames).zip (ContinuationPoint.proceedLabels (m.points frames)
    ((m.located frames).newPrologueLabels (m.points frames).length).2)

/-- The point at a position. -/
def site? (p : Nat) : Option (ContinuationPoint × Label) :=
  (m.sites frames).find? (·.1.position = p)

/-- What stands before the instruction at a position. -/
def before (p : Nat) : List Instruction :=
  match m.site? frames p with
  | none => []
  | some (point, _) => point.before m.slotTable

/-- What the instruction at a position becomes. -/
def block (p : Nat) (i : Instruction) : List Instruction :=
  match m.site? frames p with
  | none => [i]
  | some (point, proceed) => point.block m.slotTable proceed i

/-- What comes before the method's own code. -/
def prologue : List Instruction :=
  Resumable.prologue m.slotTable (m.points frames) (m.prologueLabels frames)

/-- The prologue up to the look at the mode. -/
def dispatch (m : Method) : List Instruction :=
  [Snapshot.loadReference m.slotTable.param, Snapshot.storeReference m.slotTable.capability] ++
    Snapshot.getMode m.slotTable

/-- The prologue's way to the points. -/
def pointDispatch (m : Method) (frames : Frames) : List Instruction :=
  .label (m.prologueLabels frames).loading :: (Snapshot.popState m.slotTable ++
    [Snapshot.loadReference m.slotTable.scratch, .invoke .virtual Capability.getPoint])

/-- The code that restores the frames of the points. -/
def loadBlocks (m : Method) (frames : Frames) : List Instruction :=
  ((m.points frames).zip (m.prologueLabels frames).points).flatMap fun block =>
    block.1.loadBlock m.slotTable block.2

/-- What's done about modes and points that a resumable method doesn't know. -/
def faults (m : Method) (frames : Frames) : List Instruction :=
  .label (m.prologueLabels frames).badMode ::
      Snapshot.fail "unrecognized continuation mode" ++
    .label (m.prologueLabels frames).saving ::
      Snapshot.fail "unexpected continuation mode (saving isn't allowed on entry)" ++
    .label (m.prologueLabels frames).badPoint ::
      Snapshot.fail "unrecognized continuation point id"

/-- The parts of the prologue. -/
theorem prologue_eq (m : Method) (frames : Frames) : m.prologue frames =
    m.dispatch ++ .tableSwitch 0 (m.prologueLabels frames).badMode
        [(m.prologueLabels frames).start, (m.prologueLabels frames).saving,
          (m.prologueLabels frames).loading] ::
      (m.pointDispatch frames ++
        .tableSwitch 0 (m.prologueLabels frames).badPoint (m.prologueLabels frames).points ::
      (m.loadBlocks frames ++ (m.faults frames ++ [.label (m.prologueLabels frames).start]))) := by
  simp [prologue, Resumable.prologue, dispatch, pointDispatch, loadBlocks, faults]

/-- The position at which the block of an instruction starts. -/
def blockStart (p : Nat) : Nat :=
  (m.prologue frames).length +
    ((m.body.instructions.take p).zipIdx.flatMap fun ip => m.block frames ip.2 ip.1).length

/-- The position that the instruction at a position gets, if it stays. -/
def newPosition (p : Nat) : Nat := m.blockStart frames p + (m.before frames p).length

/-- True if the instruction at a position stays, which it does unless the method suspends itself
there. -/
def Survives (p : Nat) : Prop :=
  ∀ point proceed, m.site? frames p = some (point, proceed) → point.kind ≠ .suspend

end Method

namespace Body

/-- The positions found are those at which an instruction has the property. -/
theorem mem_positionsFrom {property : Instruction → Bool} {n p : Nat} {is : List Instruction} :
    p ∈ positionsFrom property n is ↔ n ≤ p ∧ ∃ i, is[p - n]? = some i ∧ property i := by
  induction is generalizing n with
  | nil => simp [positionsFrom]
  | cons i is ih =>
      have hrest : p ∈ positionsFrom property (n + 1) is ↔
          n + 1 ≤ p ∧ ∃ j, (i :: is)[p - n]? = some j ∧ property j := by
        rw [ih]
        refine and_congr_right fun hp => ?_
        have : p - n = p - (n + 1) + 1 := by omega
        rw [this, List.getElem?_cons_succ]
      by_cases hi : property i
      · simp only [positionsFrom, hi, if_true, List.mem_cons, hrest]
        constructor
        · rintro (rfl | ⟨hp, h⟩)
          · exact ⟨Nat.le_refl _, i, by simp, hi⟩
          · exact ⟨by omega, h⟩
        · rintro ⟨hp, h⟩
          by_cases hpn : p = n
          · exact .inl hpn
          · exact .inr ⟨by omega, h⟩
      · simp only [positionsFrom, hi, Bool.false_eq_true, if_false, hrest]
        constructor
        · rintro ⟨hp, h⟩
          exact ⟨by omega, h⟩
        · rintro ⟨hp, j, hj, hjp⟩
          refine ⟨Nat.lt_of_le_of_ne hp fun hpn => ?_, j, hj, hjp⟩
          subst hpn
          obtain rfl : i = j := by simpa using hj
          exact hi hjp

theorem sorted_positionsFrom (property : Instruction → Bool) (n : Nat) (is : List Instruction) :
    (positionsFrom property n is).Pairwise (· < ·) := by
  induction is generalizing n with
  | nil => exact .nil
  | cons i is ih =>
      simp only [positionsFrom]
      split
      · exact .cons (fun p hp => (mem_positionsFrom.1 hp).1) (ih (n + 1))
      · exact ih (n + 1)

theorem nodup_positionsFrom (property : Instruction → Bool) (n : Nat) (is : List Instruction) :
    (positionsFrom property n is).Nodup :=
  (sorted_positionsFrom property n is).imp Nat.ne_of_lt

theorem mem_positions {b : Body} {property : Instruction → Bool} {p : Nat} :
    p ∈ b.positions property ↔ ∃ i, b.get? p = some i ∧ property i := by
  simp [positions, mem_positionsFrom, get?]

theorem eq_invoke_of_isSuspend {i : Instruction} (h : i.isSuspend) :
    i = .invoke .virtual Capability.suspend := by
  cases i <;> simp_all [Instruction.isSuspend, Instruction.invokes, Instruction.invoked?]

/-- An instruction with which a method suspends itself doesn't call a method that may suspend. -/
theorem isSave_eq_false_of_isSuspend {i : Instruction} (h : i.isSuspend) : i.isSave = false := by
  simp only [Instruction.isSuspend, Instruction.invokes, decide_eq_true_eq] at h
  simp [Instruction.isSave, h, Capability.suspend, MethodType.isEligible]

/-- What points there are. -/
theorem mem_pointPlaces {b : Body} {frames : Frames} {kind : PointKind} {p : Nat} {f : Frame} :
    (kind, p, f) ∈ b.pointPlaces frames ↔ frames.at? p = some f ∧
      ∃ i, b.get? p = some i ∧ match kind with
        | .suspend => i.isSuspend
        | .save => i.isSave := by
  have hmap (frame? : Option Frame) (kind' : PointKind) (p' : Nat) :
      (frame?.map fun f => (kind', p', f)) = some (kind, p, f) ↔
        frame? = some f ∧ kind' = kind ∧ p' = p := by
    cases frame? <;> simp
    grind
  simp only [pointPlaces, List.mem_filterMap, List.mem_append, List.mem_map, Prod.exists, hmap,
    Frames.at?]
  constructor
  · rintro ⟨kind', p', hmem, hf, rfl, rfl⟩
    refine ⟨hf, ?_⟩
    rcases hmem with ⟨q, hq, h⟩ | ⟨q, hq, h⟩
    · cases h
      exact mem_positions.1 hq
    · cases h
      exact mem_positions.1 hq
  · rintro ⟨hf, hi⟩
    refine ⟨kind, p, ?_, hf, rfl, rfl⟩
    cases kind with
    | suspend => exact .inl ⟨p, mem_positions.2 hi, rfl⟩
    | save => exact .inr ⟨p, mem_positions.2 hi, rfl⟩

/-- What's made of some members of a list keeps their keys, in their order. -/
theorem map_filterMap_sublist {α β γ : Type} (key : β → γ) (key' : α → γ) {f : α → Option β}
    (h : ∀ a b, f a = some b → key b = key' a) (l : List α) :
    ((l.filterMap f).map key).Sublist (l.map key') := by
  induction l with
  | nil => exact .slnil
  | cons a l ih =>
      cases ha : f a with
      | none => simpa [ha] using ih.cons _
      | some b => simpa [ha, h a b ha] using ih

/-- The places are found in the order of their kinds, and then in that of their positions. -/
theorem map_pointPlaces_sublist (b : Body) (frames : Frames) :
    ((b.pointPlaces frames).map fun place => (place.1, place.2.1)).Sublist
      ((b.positions Instruction.isSuspend).map (fun p => (PointKind.suspend, p)) ++
        (b.positions Instruction.isSave).map fun p => (PointKind.save, p)) := by
  have hfound := map_filterMap_sublist
    (fun place : PointKind × Nat × Frame => (place.1, place.2.1)) id
    (f := fun kp : PointKind × Nat => frames[kp.2]?.join.map fun f => (kp.1, kp.2, f))
    (fun kp place h => by
      obtain ⟨f, -, rfl⟩ := Option.map_eq_some_iff.1 h
      rfl)
    ((b.positions Instruction.isSuspend).map (fun p => (PointKind.suspend, p)) ++
      (b.positions Instruction.isSave).map fun p => (PointKind.save, p))
  rwa [List.map_id] at hfound

/-- There's at most one point at a position. -/
theorem nodup_pointPlaces (b : Body) (frames : Frames) :
    ((b.pointPlaces frames).map fun place => place.2.1).Nodup := by
  have hsub : ((b.pointPlaces frames).map fun place => place.2.1).Sublist
      (b.positions Instruction.isSuspend ++ b.positions Instruction.isSave) := by
    simpa [Function.comp_def] using (map_pointPlaces_sublist b frames).map Prod.snd
  refine hsub.nodup (List.nodup_append.2 ⟨nodup_positionsFrom .., nodup_positionsFrom .., ?_⟩)
  rintro p hp q hq rfl
  obtain ⟨i, hi, hsuspend⟩ := mem_positions.1 hp
  obtain ⟨j, hj, hsave⟩ := mem_positions.1 hq
  obtain rfl : i = j := Option.some.inj (hi.symm.trans hj)
  rw [isSave_eq_false_of_isSuspend hsuspend] at hsave
  cases hsave

end Body

namespace Method

variable {m : Method} {frames : Frames}

/-- The points, one by one. -/
theorem points_eq (m : Method) (frames : Frames) :
    m.points frames = List.zipWith (fun (place, id) restoreLabel =>
        { id, kind := place.1, position := place.2.1, frame := place.2.2, restoreLabel,
          returns := m.type.returns })
      (m.body.pointPlaces frames).zipIdx
      (m.body.newLabels (m.body.pointPlaces frames).length).1 := rfl

/-- The points are at the places, in their order. -/
theorem map_points (m : Method) (frames : Frames) :
    (m.points frames).map (fun point => (point.kind, point.position, point.frame)) =
      m.body.pointPlaces frames := by
  rw [points_eq, List.map_zipWith]
  exact List.ext_getElem (by simp [Body.length_newLabels]) fun k h₁ h₂ => by simp

theorem length_points (m : Method) (frames : Frames) :
    (m.points frames).length = (m.body.pointPlaces frames).length := by
  rw [← map_points, List.length_map]

theorem map_restoreLabel (m : Method) (frames : Frames) :
    (m.points frames).map (·.restoreLabel) =
      (m.body.newLabels (m.body.pointPlaces frames).length).1 := by
  rw [points_eq, List.map_zipWith]
  refine List.ext_getElem (by simp [Body.length_newLabels]) fun k h₁ h₂ => by simp

theorem getElem?_points {k : Nat} {point : ContinuationPoint}
    (h : (m.points frames)[k]? = some point) :
    point.id = k ∧ point.returns = m.type.returns ∧
      (m.body.pointPlaces frames)[k]? = some (point.kind, point.position, point.frame) := by
  rw [points_eq, List.getElem?_zipWith_eq_some] at h
  obtain ⟨⟨place, id⟩, label, hplace, hlabel, rfl⟩ := h
  rw [List.getElem?_zipIdx] at hplace
  cases hk : (m.body.pointPlaces frames)[k]? with
  | none => simp [hk] at hplace
  | some place' =>
      simp only [hk, Option.map_some, Option.some.injEq, Prod.mk.injEq] at hplace
      obtain ⟨rfl, rfl⟩ := hplace
      simp

/-- What's known of a point: it's at an invocation that execution may get to. -/
theorem of_mem_points {point : ContinuationPoint} (h : point ∈ m.points frames) :
    frames.at? point.position = some point.frame ∧ point.returns = m.type.returns ∧
      ∃ i, m.body.get? point.position = some i ∧ match point.kind with
        | .suspend => i.isSuspend
        | .save => i.isSave := by
  obtain ⟨k, hk⟩ := List.mem_iff_getElem?.1 h
  obtain ⟨-, hreturns, hplace⟩ := getElem?_points hk
  obtain ⟨hframe, hi⟩ := Body.mem_pointPlaces.1 (List.mem_of_getElem? hplace)
  exact ⟨hframe, hreturns, hi⟩

theorem exists_point {p : Nat} {f : Frame} {i : Instruction} (hf : frames.at? p = some f)
    (hi : m.body.get? p = some i) (h : i.isSuspend ∨ i.isSave) :
    ∃ point ∈ m.points frames, point.position = p := by
  obtain ⟨kind, hkind⟩ : ∃ kind, (kind, p, f) ∈ m.body.pointPlaces frames := by
    rcases h with h | h
    · exact ⟨.suspend, Body.mem_pointPlaces.2 ⟨hf, i, hi, h⟩⟩
    · exact ⟨.save, Body.mem_pointPlaces.2 ⟨hf, i, hi, h⟩⟩
  rw [← map_points] at hkind
  obtain ⟨point, hpoint, hplace⟩ := List.mem_map.1 hkind
  cases hplace
  exact ⟨point, hpoint, rfl⟩

theorem nodup_positions (m : Method) (frames : Frames) :
    ((m.points frames).map (·.position)).Nodup := by
  have h := Body.nodup_pointPlaces m.body frames
  rwa [← map_points, List.map_map] at h

theorem map_fst_sites (m : Method) (frames : Frames) :
    (m.sites frames).map (·.1) = m.points frames := by
  simp [sites, List.map_fst_zip, ContinuationPoint.length_proceedLabels]

theorem mem_points_of_mem_sites {site : ContinuationPoint × Label} (h : site ∈ m.sites frames) :
    site.1 ∈ m.points frames :=
  map_fst_sites m frames ▸ List.mem_map_of_mem h

theorem nodup_sites (m : Method) (frames : Frames) :
    ((m.sites frames).map (·.1.position)).Nodup := by
  have := nodup_positions m frames
  rwa [← map_fst_sites, List.map_map] at this

/-- There's one site at a position at most, and so it's the one that's found. -/
theorem site?_eq_some {p : Nat} {site : ContinuationPoint × Label} :
    m.site? frames p = some site ↔ site ∈ m.sites frames ∧ site.1.position = p := by
  constructor
  · intro h
    exact ⟨List.mem_of_find?_eq_some h, by simpa using List.find?_some h⟩
  · rintro ⟨hmem, hp⟩
    cases hfound : m.site? frames p with
    | none => exact absurd hp (by simpa using List.find?_eq_none.1 hfound site hmem)
    | some site' =>
        have hmem' : site' ∈ m.sites frames := List.mem_of_find?_eq_some hfound
        have hp' : site'.1.position = p := by simpa using List.find?_some hfound
        rw [List.inj_on_of_nodup_map (nodup_sites m frames) hmem hmem' (hp.trans hp'.symm)]

theorem exists_site {point : ContinuationPoint} (h : point ∈ m.points frames) :
    ∃ proceed, m.site? frames point.position = some (point, proceed) := by
  rw [← map_fst_sites, List.mem_map] at h
  obtain ⟨⟨point, proceed⟩, hmem, rfl⟩ := h
  exact ⟨proceed, site?_eq_some.2 ⟨hmem, rfl⟩⟩

theorem filter_sites (m : Method) (frames : Frames) (p : Nat) :
    (m.sites frames).filter (·.1.position = p) = (m.site? frames p).toList := by
  have hnodup := nodup_sites m frames
  rw [site?]
  generalize m.sites frames = sites at hnodup
  induction sites with
  | nil => rfl
  | cons site sites ih =>
      rw [List.map_cons, List.nodup_cons] at hnodup
      by_cases hp : site.1.position = p
      · have hnone : sites.filter (·.1.position = p) = [] := by
          refine List.filter_eq_nil_iff.2 fun other hother => ?_
          rw [decide_eq_true_eq]
          intro hp'
          exact hnodup.1 (hp'.trans hp.symm ▸ List.mem_map_of_mem hother)
        simp [hp, hnone]
      · simpa [hp] using ih hnodup.2

/-- The edits at a position are those of its point. -/
theorem filter_edits (m : Method) (frames : Frames) (p : Nat) :
    ((m.sites frames).map fun site => site.1.edit m.slotTable site.2).filter (·.position = p) =
      ((m.site? frames p).map fun site => site.1.edit m.slotTable site.2).toList := by
  have hposition (site : ContinuationPoint × Label) :
      (site.1.edit m.slotTable site.2).position = site.1.position := by
    simp only [ContinuationPoint.edit]
    split <;> rfl
  rw [List.filter_map]
  simp only [Function.comp_def, hposition, filter_sites]
  cases m.site? frames p <;> rfl

theorem edits_weave (m : Method) (frames : Frames) :
    (m.weave frames).body.instructions = (m.body.splice (.insertBefore 0 (m.prologue frames) ::
      (m.sites frames).map fun site => site.1.edit m.slotTable site.2)).instructions := by
  have hzip : (m.sites frames).map (fun site => site.1.edit m.slotTable site.2) =
      (ContinuationPoint.edits m.slotTable (m.points frames)
        ((m.located frames).newPrologueLabels (m.points frames).length).2).1 := by
    rw [ContinuationPoint.edits_eq, sites, ← List.map_uncurry_zip_eq_zipWith]
    rfl
  rw [hzip]
  have hbody : (ContinuationPoint.edits m.slotTable (m.points frames)
      ((m.located frames).newPrologueLabels (m.points frames).length).2).2.instructions =
        m.body.instructions := by
    rw [ContinuationPoint.instructions_edits]
    simp only [Body.newPrologueLabels, Body.newLabel, Body.nextLabel_newLabels, located, Body.locate]
  simp only [Body.splice, ← hbody]
  rfl

/-- A resumable body has the prologue first, and then a block for each instruction. -/
theorem instructions_weave (hne : m.body.length ≠ 0) :
    (m.weave frames).body.instructions = m.prologue frames ++
      m.body.instructions.zipIdx.flatMap fun ip => m.block frames ip.2 ip.1 := by
  rw [edits_weave, Body.instructions_splice]
  · have hblock (p : Nat) (i : Instruction) : Edit.replacement i
        ((m.site? frames p).map fun site => site.1.edit m.slotTable site.2).toList =
          m.block frames p i := by
      simp only [block]
      cases m.site? frames p with
      | none => simp [Edit.replacement]
      | some site => exact ContinuationPoint.replacement_edit ..
    cases hbody : m.body.instructions with
    | nil => exact absurd (by simp [Body.length, hbody]) hne
    | cons i rest =>
        simp only [List.zipIdx_cons, List.flatMap_cons, List.filter_cons, Edit.insertBefore,
          decide_true, if_true, filter_edits]
        rw [← hblock 0 i]
        simp only [Edit.replacement, List.flatMap_cons, List.any_cons, Bool.false_or,
          List.append_assoc, List.nil_append]
        congr 4
        refine List.flatMap_congr fun ip hip => ?_
        have hp := List.le_snd_of_mem_zipIdx hip
        have hne : decide (0 = ip.2) = false := decide_eq_false (by omega)
        simp only [← hblock ip.2 ip.1, hne, Bool.false_eq_true, if_false, Edit.replacement,
          List.append_assoc]
  · intro e he
    rcases List.mem_cons.1 he with rfl | he
    · exact Nat.pos_of_ne_zero hne
    · obtain ⟨site, hsite, rfl⟩ := List.mem_map.1 he
      obtain ⟨-, -, i, hi, -⟩ := of_mem_points (mem_points_of_mem_sites hsite)
      have := Body.lt_of_get? hi
      simp only [ContinuationPoint.edit]
      split <;> exact this

/-- The prologue stands at the start. -/
theorem hasAt_prologue (frames : Frames) (hne : m.body.length ≠ 0) :
    (m.weave frames).body.HasAt 0 (m.prologue frames) :=
  ⟨[], _, by rw [instructions_weave hne]; rfl, rfl⟩

/-- Each block stands where it starts. -/
theorem hasAt_block (frames : Frames) {p : Nat} {i : Instruction} (hi : m.body.get? p = some i) :
    (m.weave frames).body.HasAt (m.blockStart frames p) (m.block frames p i) := by
  have hne : m.body.length ≠ 0 := by
    have := Body.lt_of_get? hi
    omega
  refine ⟨m.prologue frames ++
      (m.body.instructions.take p).zipIdx.flatMap fun ip => m.block frames ip.2 ip.1,
    ((m.body.instructions.drop (p + 1)).zipIdx (p + 1)).flatMap fun ip => m.block frames ip.2 ip.1,
    ?_, by simp [blockStart]⟩
  rw [instructions_weave hne, flatMap_zipIdx_eq _ hi]
  simp

/-- An instruction that stays is in its block, right after what comes before it. -/
theorem block_eq_of_survives {p : Nat} (h : m.Survives frames p) (i : Instruction) :
    ∃ after, m.block frames p i = m.before frames p ++ i :: after := by
  simp only [block, before]
  cases hsite : m.site? frames p with
  | none => exact ⟨[], rfl⟩
  | some site =>
      have hkind : site.1.kind = .save := by
        cases hk : site.1.kind with
        | suspend => exact absurd hk (h _ _ hsite)
        | save => rfl
      refine ⟨site.1.afterSave m.slotTable site.2, ?_⟩
      simp only [ContinuationPoint.block, ContinuationPoint.before, hkind]

/-- An instruction that stays stands at its new position. -/
theorem get?_newPosition {p : Nat} {i : Instruction} (hi : m.body.get? p = some i)
    (h : m.Survives frames p) : (m.weave frames).body.get? (m.newPosition frames p) = some i := by
  obtain ⟨after, hafter⟩ := block_eq_of_survives h i
  have hat := hasAt_block frames hi
  rw [hafter] at hat
  exact hat.right.head

theorem blockStart_zero (m : Method) (frames : Frames) :
    m.blockStart frames 0 = (m.prologue frames).length := by simp [blockStart]

/-- The next block follows a block. -/
theorem blockStart_succ {p : Nat} {i : Instruction} (hi : m.body.get? p = some i) :
    m.blockStart frames (p + 1) = m.blockStart frames p + (m.block frames p i).length := by
  have hi' : m.body.instructions[p]? = some i := hi
  simp only [blockStart]
  rw [List.take_add_one, hi', List.zipIdx_append]
  have hp := Nat.le_of_lt (Body.lt_of_get? hi)
  have hp' : p ≤ m.body.instructions.length := hp
  simp [hp', Nat.add_assoc]

section Site

variable {p : Nat} {point : ContinuationPoint} {proceed : Label}
  (hsite : m.site? frames p = some (point, proceed))

include hsite

/-- What a call of a method that may suspend becomes. -/
theorem block_of_save (hsave : point.kind = .save) (i : Instruction) :
    m.block frames p i =
      point.saveBlock m.slotTable ++ i :: point.afterSave m.slotTable proceed := by
  simp only [block, hsite, ContinuationPoint.block, hsave]

/-- What an instruction becomes where the method suspends itself. -/
theorem block_of_suspend (hsuspend : point.kind = .suspend) (i : Instruction) :
    m.block frames p i = point.suspendBlock m.slotTable := by
  simp only [block, hsite, ContinuationPoint.block, hsuspend]

theorem newPosition_of_save (hsave : point.kind = .save) :
    m.newPosition frames p =
      m.blockStart frames p + (point.saveBlock m.slotTable).length := by
  simp only [newPosition, before, hsite, ContinuationPoint.before, hsave]

theorem newPosition_of_suspend (hsuspend : point.kind = .suspend) :
    m.newPosition frames p = m.blockStart frames p := by
  simp only [newPosition, before, hsite, ContinuationPoint.before, hsuspend, List.length_nil,
    Nat.add_zero]

theorem blockStart_succ_of_save (hsave : point.kind = .save) {i : Instruction}
    (hi : m.body.get? p = some i) :
    m.blockStart frames (p + 1) = m.newPosition frames p + 1 +
      (point.afterSave m.slotTable proceed).length := by
  rw [blockStart_succ hi, block_of_save hsite hsave, newPosition_of_save hsite hsave,
    List.length_append, List.length_cons]
  omega

theorem blockStart_succ_of_suspend (hsuspend : point.kind = .suspend) {i : Instruction}
    (hi : m.body.get? p = some i) :
    m.blockStart frames (p + 1) =
      m.blockStart frames p + (point.suspendBlock m.slotTable).length := by
  rw [blockStart_succ hi, block_of_suspend hsite hsuspend]

end Site

theorem length_weave (hne : m.body.length ≠ 0) :
    (m.weave frames).body.length = m.blockStart frames m.body.length := by
  simp [Body.length, blockStart, instructions_weave hne]

end Method

end Resumable
