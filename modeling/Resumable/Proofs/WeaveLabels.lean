import Mathlib.Data.List.Perm.Basic
import Resumable.Proofs.Snapshots
import Resumable.Proofs.Weave

/-!
# The labels of resumable methods

The labels that a resumable method places are those of the method that it was made from, and the new
ones, each placed once.
-/

namespace Resumable

theorem Plain.placed {code : List Instruction} (h : Plain code) : Body.placed code = [] :=
  List.filterMap_eq_nil_iff.2 fun i hi => (Instruction.isPlain_iff.1 (plain_iff.1 h i hi)).1

theorem Plain.targets {code : List Instruction} (h : Plain code) :
    code.flatMap Instruction.targets = [] :=
  List.flatMap_eq_nil_iff.2 fun i hi => (Instruction.isPlain_iff.1 (plain_iff.1 h i hi)).2.1

theorem placed_cons (i : Instruction) (code : List Instruction) :
    Body.placed (i :: code) = i.placed?.toList ++ Body.placed code := by
  cases h : i.placed? <;> simp [Body.placed, h]

theorem placed_flatMap {α : Type} (l : List α) (f : α → List Instruction) :
    Body.placed (l.flatMap f) = l.flatMap fun a => Body.placed (f a) := by
  simp [Body.placed, List.filterMap_flatMap]

namespace ContinuationPoint

open Snapshot

variable (t : SlotTable) (p : ContinuationPoint) (l : Label) (i : Instruction)

theorem placed_leaveEarly (returns : Option ValueType) :
    Body.placed (leaveEarly returns) = [] := by
  cases returns <;> rfl

theorem targets_leaveEarly (returns : Option ValueType) :
    (leaveEarly returns).flatMap Instruction.targets = [] := by
  cases returns <;> rfl

theorem placed_saveBlock : Body.placed (p.saveBlock t) = [p.restoreLabel] := by
  simp only [saveBlock, Body.placed_append, (plain_saveStack t _).placed,
    (plain_loadStack t _).placed, (plain_saveLocals t _).placed]
  rfl

theorem targets_saveBlock : (p.saveBlock t).flatMap Instruction.targets = [] := by
  simp only [saveBlock, List.flatMap_append, (plain_saveStack t _).targets,
    (plain_loadStack t _).targets, (plain_saveLocals t _).targets]
  rfl

theorem placed_suspendBlock : Body.placed (p.suspendBlock t) = [p.restoreLabel] := by
  simp only [suspendBlock, List.cons_append, placed_cons, Body.placed_append,
    (plain_saveStack t _).placed, (plain_saveLocals t _).placed, (plain_pushState t _).placed,
    (plain_setMode t _).placed, placed_leaveEarly]
  rfl

theorem targets_suspendBlock : (p.suspendBlock t).flatMap Instruction.targets = [] := by
  simp only [suspendBlock, List.cons_append, List.flatMap_cons, List.flatMap_append,
    (plain_saveStack t _).targets, (plain_saveLocals t _).targets, (plain_pushState t _).targets,
    (plain_setMode t _).targets, targets_leaveEarly]
  rfl

theorem placed_afterSave : Body.placed (p.afterSave t l) = [l] := by
  simp only [afterSave, Body.placed_append, (plain_getMode t).placed,
    (plain_pushState t _).placed, placed_leaveEarly]
  rfl

theorem targets_afterSave : (p.afterSave t l).flatMap Instruction.targets = [l] := by
  simp only [afterSave, List.flatMap_append, (plain_getMode t).targets,
    (plain_pushState t _).targets, targets_leaveEarly]
  rfl

theorem placed_loadBlock : Body.placed (p.loadBlock t l) = [l] := by
  simp only [loadBlock, List.cons_append, placed_cons, Body.placed_append,
    (plain_loadStack t _).placed, (plain_loadLocals t _).placed]
  rfl

theorem targets_loadBlock : (p.loadBlock t l).flatMap Instruction.targets = [p.restoreLabel] := by
  simp only [loadBlock, List.cons_append, List.flatMap_cons, List.flatMap_append,
    (plain_loadStack t _).targets, (plain_loadLocals t _).targets]
  rfl

/-- The new labels that are placed at a point. -/
def ownLabels : List Label :=
  match p.kind with
  | .suspend => [p.restoreLabel]
  | .save => [p.restoreLabel, l]

/-- A point, which is at an invocation, places just its own labels. -/
theorem placed_block (hi : i.placed? = none) : Body.placed (p.block t l i) = p.ownLabels l := by
  cases hk : p.kind with
  | suspend => simp only [block, ownLabels, hk, placed_suspendBlock]
  | save =>
      simp only [block, ownLabels, hk, Body.placed_append, placed_saveBlock, placed_cons, hi,
        placed_afterSave]
      rfl

theorem targets_block (hi : i.targets = []) :
    ∀ k ∈ (p.block t l i).flatMap Instruction.targets, k ∈ p.ownLabels l := by
  cases hk : p.kind with
  | suspend => simp [block, hk, targets_suspendBlock]
  | save =>
      simp [block, ownLabels, hk, List.flatMap_append, targets_saveBlock, hi, targets_afterSave]

theorem edits_snd (points : List ContinuationPoint) (b : Body) :
    (edits t points b).2 = (b.newLabels (points.countP (·.kind = .save))).2 := by
  induction points generalizing b with
  | nil => rfl
  | cons p points ih =>
      cases hk : p.kind with
      | suspend => simp [edits, hk, ih]
      | save =>
          simp only [edits, hk, ih, List.countP_cons, decide_true, if_true]
          rfl

end ContinuationPoint

namespace Method

variable {m : Method} {frames : Frames}

theorem placed?_eq_none_of_site {p : Nat} {site : ContinuationPoint × Label} {i : Instruction}
    (hsite : m.site? frames p = some site) (hi : m.body.get? p = some i) :
    i.placed? = none ∧ i.targets = [] := by
  obtain ⟨hmem, hp⟩ := site?_eq_some.1 hsite
  obtain ⟨-, -, j, hj, hkind⟩ := of_mem_points (mem_points_of_mem_sites hmem)
  rw [hp, hi] at hj
  cases hj
  cases hk : site.1.kind with
  | suspend =>
      rw [hk] at hkind
      cases i <;> simp_all [Instruction.isSuspend, Instruction.invokes, Instruction.invoked?,
        Instruction.placed?, Instruction.targets]
  | save =>
      rw [hk] at hkind
      cases i <;> simp_all [Instruction.isSave, Instruction.invoked?, Instruction.placed?,
        Instruction.targets]

/-- The new labels of a resumable method. -/
def freshLabels (m : Method) (frames : Frames) : List Label :=
  let l := m.prologueLabels frames
  (m.points frames).map (·.restoreLabel) ++
    (l.start :: l.loading :: l.saving :: l.badMode :: l.badPoint :: l.points) ++
    ((m.sites frames).filter (·.1.kind = .save)).map (·.2)

/-- How many new labels a resumable method needs. -/
def freshLabelCount (m : Method) (frames : Frames) : Nat :=
  (m.points frames).length + ((m.points frames).length + 5) +
    (m.points frames).countP (·.kind = .save)

/-- The new labels of a resumable method are numbered consecutively. -/
theorem freshLabels_eq (m : Method) (frames : Frames) :
    m.freshLabels frames = (m.body.newLabels (m.freshLabelCount frames)).1 := by
  have hlocated : m.located frames = (m.body.newLabels (m.points frames).length).2 := by
    rw [length_points]
    rfl
  have hprologue (b : Body) (n : Nat) :
      (b.newLabels (n + 5)).2 = (b.newPrologueLabels n).2 := rfl
  rw [freshLabelCount, Body.newLabels_add, Body.newLabels_add, Body.newLabels_add_snd, ← hlocated,
    hprologue, freshLabels]
  have hsaves := ContinuationPoint.filter_proceedLabels (m.points frames)
    ((m.located frames).newPrologueLabels (m.points frames).length).2
  congr 1
  congr 1
  rw [map_restoreLabel, length_points]

theorem length_prologueLabels (m : Method) (frames : Frames) :
    (m.prologueLabels frames).points.length = (m.points frames).length := by
  simp [prologueLabels, Body.newPrologueLabels, Body.length_newLabels]

theorem placed_loadBlocks (m : Method) (frames : Frames) :
    Body.placed (m.loadBlocks frames) = (m.prologueLabels frames).points := by
  rw [loadBlocks, placed_flatMap]
  simp only [ContinuationPoint.placed_loadBlock]
  have hlength := length_prologueLabels m frames
  generalize (m.prologueLabels frames).points = labels at hlength
  generalize m.points frames = points at hlength
  induction points generalizing labels with
  | nil =>
      obtain rfl : labels = [] := by simpa using hlength
      rfl
  | cons p points ih =>
      cases labels with
      | nil => simp at hlength
      | cons l labels => simpa using ih labels (by simpa using hlength)

theorem placed_prologue (m : Method) (frames : Frames) :
    (Body.placed (m.prologue frames)).Perm
      (let l := m.prologueLabels frames
       l.start :: l.loading :: l.saving :: l.badMode :: l.badPoint :: l.points) := by
  have hdispatch : Body.placed m.dispatch = [] :=
    (plain_append.2 ⟨rfl, Snapshot.plain_getMode _⟩ : Plain m.dispatch).placed
  have hpoint : Body.placed (m.pointDispatch frames) = [(m.prologueLabels frames).loading] := by
    rw [pointDispatch, placed_cons, Body.placed_append, (Snapshot.plain_popState _).placed]
    rfl
  have hfaults : Body.placed (m.faults frames) = [(m.prologueLabels frames).badMode,
      (m.prologueLabels frames).saving, (m.prologueLabels frames).badPoint] := rfl
  have hplaced : Body.placed (m.prologue frames) =
      (m.prologueLabels frames).loading :: (m.prologueLabels frames).points ++
        [(m.prologueLabels frames).badMode, (m.prologueLabels frames).saving,
          (m.prologueLabels frames).badPoint, (m.prologueLabels frames).start] := by
    rw [prologue_eq, Body.placed_append, placed_cons, Body.placed_append, placed_cons,
      Body.placed_append, Body.placed_append, hdispatch, hpoint, placed_loadBlocks, hfaults]
    rfl
  rw [hplaced]
  generalize m.prologueLabels frames = l
  rw [List.perm_iff_count]
  intro k
  simp only [List.cons_append, List.count_cons, List.count_append, List.count_nil]
  omega

/-- The new labels at the position of a site. -/
def ownLabels (m : Method) (frames : Frames) (p : Nat) : List Label :=
  (m.site? frames p).toList.flatMap fun site => site.1.ownLabels site.2

/-- A block places what its instruction places, and the labels of its site. -/
theorem placed_block {p : Nat} {i : Instruction} (hi : m.body.get? p = some i) :
    Body.placed (m.block frames p i) = m.ownLabels frames p ++ Body.placed [i] := by
  simp only [block, ownLabels]
  cases hsite : m.site? frames p with
  | none => simp
  | some site =>
      obtain ⟨hplaced, -⟩ := placed?_eq_none_of_site hsite hi
      have hblock := site.1.placed_block m.slotTable site.2 i hplaced
      simp only [Body.placed] at hblock ⊢
      simp [hblock, hplaced]

/-- The labels of all sites are the labels at which frames are restored, and those at which points
that call other methods go on. -/
theorem flatMap_ownLabels (m : Method) (frames : Frames) :
    ((m.sites frames).flatMap fun site => site.1.ownLabels site.2).Perm
      ((m.points frames).map (·.restoreLabel) ++
        ((m.sites frames).filter (·.1.kind = .save)).map (·.2)) := by
  rw [← map_fst_sites m frames, List.map_map]
  induction m.sites frames with
  | nil => exact .nil
  | cons site sites ih =>
      rw [List.flatMap_cons, List.map_cons, List.cons_append]
      cases hk : site.1.kind with
      | suspend => simpa [ContinuationPoint.ownLabels, hk] using ih
      | save =>
          simp only [ContinuationPoint.ownLabels, hk, List.cons_append, List.nil_append,
            List.filter_cons, decide_true, if_true, List.map_cons]
          exact (ih.cons _ |>.trans List.perm_middle.symm).cons _

/-- A resumable method places the labels that it placed before, and the new ones. -/
theorem placed_weave (frames : Frames) (hne : m.body.length ≠ 0) :
    (Body.placed (m.weave frames).body.instructions).Perm
      (m.freshLabels frames ++ Body.placed m.body.instructions) := by
  have hblocks : (Body.placed (m.body.instructions.zipIdx.flatMap
      fun ip => m.block frames ip.2 ip.1)).Perm
        ((m.points frames).map (·.restoreLabel) ++
          ((m.sites frames).filter (·.1.kind = .save)).map (·.2) ++
            Body.placed m.body.instructions) := by
    have hplaced : Body.placed (m.body.instructions.zipIdx.flatMap
        fun ip => m.block frames ip.2 ip.1) =
          m.body.instructions.zipIdx.flatMap fun ip =>
            m.ownLabels frames ip.2 ++ Body.placed [ip.1] := by
      rw [placed_flatMap]
      refine List.flatMap_congr fun ip hip => placed_block ?_
      exact List.mem_zipIdx_iff_getElem?.1 hip
    have hown : m.body.instructions.zipIdx.flatMap (fun ip => m.ownLabels frames ip.2) =
        (List.range m.body.length).flatMap (m.ownLabels frames) := by
      have : (m.body.instructions.zipIdx.map (·.2)) = List.range m.body.length := by
        simp [List.zipIdx_map_snd, List.range_eq_range', Body.length]
      rw [← this, List.flatMap_map]
    have hsites : ((List.range m.body.length).flatMap (m.ownLabels frames)).Perm
        ((m.sites frames).flatMap fun site => site.1.ownLabels site.2) := by
      have hlt (site : ContinuationPoint × Label) (hsite : site ∈ m.sites frames) :
          site.1.position < m.body.length := by
        obtain ⟨-, -, i, hi, -⟩ := of_mem_points (mem_points_of_mem_sites hsite)
        exact Body.lt_of_get? hi
      have := (flatMap_filter_perm _ hlt).flatMap_right fun site => site.1.ownLabels site.2
      simp only [List.flatMap_assoc, filter_sites] at this
      exact this
    have hrest : m.body.instructions.zipIdx.flatMap (fun ip => Body.placed [ip.1]) =
        Body.placed m.body.instructions := by
      have := placed_flatMap m.body.instructions fun i => [i]
      rw [List.flatMap_singleton'] at this
      rw [this]
      conv_rhs => rw [← List.zipIdx_map_fst 0 m.body.instructions, List.flatMap_map]
    rw [hplaced]
    refine (List.flatMap_append_perm _ _ _).symm.trans ?_
    rw [hown, hrest]
    exact (hsites.trans (flatMap_ownLabels m frames)).append_right _
  rw [instructions_weave hne, Body.placed_append]
  refine ((placed_prologue m frames).append hblocks).trans ?_
  rw [freshLabels, ← List.append_assoc, ← List.append_assoc]
  refine List.Perm.append_right _ (List.Perm.append_right _ ?_)
  exact List.perm_append_comm

/-- The new labels differ from each other and from the labels of the method, if its counter is above
them and the numbers don't run out. -/
theorem nodup_placed_weave {owner : String} (h : m.Analyzed owner frames)
    (counter : ∀ l ∈ Body.placed m.body.instructions, l.number < m.body.nextLabel)
    (enough : m.body.nextLabel.toNat + m.freshLabelCount frames ≤ 4294967295) :
    (m.freshLabels frames ++ Body.placed m.body.instructions).Nodup := by
  rw [freshLabels_eq]
  refine List.nodup_append.2 ⟨Body.nodup_newLabels enough, (Body.labelPositions_eq_ok.1 h.labels).1, ?_⟩
  rintro l hl l' hl' rfl
  have hge := Body.le_number_of_mem_newLabels enough hl
  have hlt := counter l hl'
  rw [UInt32.le_iff_toNat_le] at hge
  rw [UInt32.lt_iff_toNat_lt] at hlt
  omega

theorem targets_loadBlocks (m : Method) (frames : Frames) :
    ∀ k ∈ (m.loadBlocks frames).flatMap Instruction.targets,
      k ∈ (m.points frames).map (·.restoreLabel) := by
  intro k hk
  rw [loadBlocks, List.flatMap_assoc, List.mem_flatMap] at hk
  obtain ⟨block, hmem, hk⟩ := hk
  simp only [ContinuationPoint.targets_loadBlock, List.mem_singleton] at hk
  have hpoint : block.1 ∈ m.points frames := (List.of_mem_zip hmem).1
  exact hk ▸ List.mem_map_of_mem hpoint

theorem targets_prologue (m : Method) (frames : Frames) :
    ∀ k ∈ (m.prologue frames).flatMap Instruction.targets, k ∈ m.freshLabels frames := by
  have hdispatch : m.dispatch.flatMap Instruction.targets = [] :=
    (plain_append.2 ⟨rfl, Snapshot.plain_getMode _⟩ : Plain m.dispatch).targets
  have hpoint : (m.pointDispatch frames).flatMap Instruction.targets = [] := by
    rw [pointDispatch, List.flatMap_cons, List.flatMap_append, (Snapshot.plain_popState _).targets]
    rfl
  have htargets : (m.prologue frames).flatMap Instruction.targets =
      (let l := m.prologueLabels frames
       [l.badMode, l.start, l.saving, l.loading] ++ l.badPoint :: l.points) ++
        (m.loadBlocks frames).flatMap Instruction.targets := by
    rw [prologue_eq, List.flatMap_append, List.flatMap_cons, List.flatMap_append,
      List.flatMap_cons, List.flatMap_append, List.flatMap_append, hdispatch, hpoint]
    simp [Instruction.targets, faults, Snapshot.fail]
  intro k hk
  rw [htargets] at hk
  simp only [freshLabels]
  rcases List.mem_append.1 hk with hk | hk
  · refine List.mem_append_left _ (List.mem_append_right _ ?_)
    simp only [List.cons_append, List.nil_append, List.mem_cons] at hk ⊢
    grind
  · exact List.mem_append_left _ (List.mem_append_left _ (targets_loadBlocks m frames k hk))

/-- All labels that a resumable method uses are placed. -/
theorem targets_weave {owner : String} (h : m.Analyzed owner frames) :
    ∀ i ∈ (m.weave frames).body.instructions, ∀ l ∈ i.targets,
      l ∈ m.freshLabels frames ++ Body.placed m.body.instructions := by
  have hne := h.length_ne_zero
  intro i hi l hl
  rw [instructions_weave hne, List.mem_append, List.mem_flatMap] at hi
  rcases hi with hi | ⟨⟨j, p⟩, hmem, hi⟩
  · exact List.mem_append_left _ (targets_prologue m frames l (List.mem_flatMap.2 ⟨i, hi, hl⟩))
  · have hj : m.body.get? p = some j := List.mem_zipIdx_iff_getElem?.1 hmem
    simp only [block] at hi
    cases hsite : m.site? frames p with
    | none =>
        rw [hsite] at hi
        obtain rfl : i = j := by simpa using hi
        exact List.mem_append_right _
          ((Body.labelPositions_eq_ok.1 h.labels).2 i (List.mem_of_getElem? hj) l hl)
    | some site =>
        rw [hsite] at hi
        obtain ⟨-, htargets⟩ := placed?_eq_none_of_site hsite hj
        have hown := site.1.targets_block m.slotTable site.2 j htargets l
          (List.mem_flatMap.2 ⟨i, hi, hl⟩)
        have hsites : site ∈ m.sites frames := (site?_eq_some.1 hsite).1
        have := (flatMap_ownLabels m frames).subset (List.mem_flatMap.2 ⟨site, hsites, hown⟩)
        refine List.mem_append_left _ ?_
        simp only [freshLabels, List.mem_append] at this ⊢
        tauto

/-- The labels of a resumable method are in order. -/
theorem labels_weave {owner : String} (h : m.Analyzed owner frames)
    (hnodup : (m.freshLabels frames ++ Body.placed m.body.instructions).Nodup) :
    ∃ places, (m.weave frames).body.labelPositions = .ok places := by
  have hne := h.length_ne_zero
  have hperm := placed_weave frames hne
  exact Body.labelPositions_eq_ok.2 ⟨hperm.nodup_iff.2 hnodup, fun i hi l hl =>
    hperm.mem_iff.2 (targets_weave h i hi l hl)⟩

/-- The counter of a resumable method is beyond its new labels. -/
theorem nextLabel_weave (m : Method) (frames : Frames) : (m.weave frames).body.nextLabel =
    m.body.nextLabel + UInt32.ofNat (m.freshLabelCount frames) := by
  have hlocated : m.located frames = (m.body.newLabels (m.points frames).length).2 := by
    rw [length_points]
    rfl
  have hprologue (b : Body) (n : Nat) :
      (b.newPrologueLabels n).2 = (b.newLabels (n + 5)).2 := rfl
  have hweave : (m.weave frames).body.nextLabel = (ContinuationPoint.edits m.slotTable
      (m.points frames) ((m.located frames).newPrologueLabels (m.points frames).length).2).2.nextLabel := rfl
  rw [hweave, ContinuationPoint.edits_snd, hprologue, hlocated, ← Body.newLabels_add_snd,
    ← Body.newLabels_add_snd, Body.nextLabel_newLabels, freshLabelCount, Nat.add_assoc,
    Nat.add_assoc, Nat.add_assoc]

/-- The body of a resumable method has the counter of a body that has just been read, if the
original one has and the numbers don't run out. -/
theorem weave_eq_ofList {owner : String} (h : m.Analyzed owner frames)
    (hbody : m.body = .ofList m.body.instructions)
    (used : ∀ l ∈ m.body.instructions.flatMap Instruction.labels, l.number.toNat < 4294967295)
    (enough : m.body.nextLabel.toNat + m.freshLabelCount frames ≤ 4294967295) :
    (m.weave frames).body = .ofList (m.weave frames).body.instructions := by
  have hne := h.length_ne_zero
  have hplaced {l : Label} : l ∈ Body.placed (m.weave frames).body.instructions ↔
      l ∈ m.freshLabels frames ++ Body.placed m.body.instructions := (placed_weave frames hne).mem_iff
  obtain ⟨n, hcount⟩ : ∃ n, m.freshLabelCount frames = n + 1 :=
    ⟨_, (Nat.succ_pred_eq_of_pos (by rw [freshLabelCount]; omega)).symm⟩
  rw [hcount] at enough
  have hsucc {a : UInt32} (ha : a.toNat < 4294967295) : (a + 1).toNat = a.toNat + 1 := by
    have hone : UInt32.toNat 1 = 1 := rfl
    rw [UInt32.toNat_add, hone]
    exact Nat.mod_eq_of_lt (by omega)
  -- The last of the new labels is the greatest one.
  have hlast : (⟨m.body.nextLabel + UInt32.ofNat n⟩ : Label) ∈ m.freshLabels frames := by
    rw [freshLabels_eq, hcount, Body.newLabels_eq]
    exact List.mem_map.2 ⟨n, List.mem_range.2 (Nat.lt_succ_self n), rfl⟩
  have hnumber : (m.body.nextLabel + UInt32.ofNat n).toNat = m.body.nextLabel.toNat + n := by
    rw [UInt32.toNat_add, UInt32.toNat_ofNat', Nat.mod_eq_of_lt (a := n) (by omega)]
    exact Nat.mod_eq_of_lt (by omega)
  have hmem : (⟨m.body.nextLabel + UInt32.ofNat n⟩ : Label) ∈
      (m.weave frames).body.instructions.flatMap Instruction.labels := by
    obtain ⟨i, hi, hl⟩ := List.mem_filterMap.1 (hplaced.2 (List.mem_append_left _ hlast))
    exact List.mem_flatMap.2 ⟨i, hi, by simp [Instruction.labels, hl]⟩
  have hbound {l : Label} (hl : l ∈ m.freshLabels frames ++ Body.placed m.body.instructions) :
      l.number.toNat ≤ m.body.nextLabel.toNat + n := by
    rcases List.mem_append.1 hl with hl | hl
    · rw [freshLabels_eq, hcount] at hl
      have := Body.number_lt_of_mem_newLabels enough hl
      omega
    · obtain ⟨i, hi, hl⟩ := List.mem_filterMap.1 hl
      have hused : l ∈ m.body.instructions.flatMap Instruction.labels :=
        List.mem_flatMap.2 ⟨i, hi, by simp [Instruction.labels, hl]⟩
      have hlt := Body.number_lt_nextLabel hused (used l hused)
      rw [← hbody, UInt32.lt_iff_toNat_lt] at hlt
      omega
  have hle (l : Label) (hl : l ∈ (m.weave frames).body.instructions.flatMap Instruction.labels) :
      l.number + 1 ≤ m.body.nextLabel + UInt32.ofNat n + 1 := by
    obtain ⟨i, hi, hl⟩ := List.mem_flatMap.1 hl
    have := hbound (l := l) (by
      rcases List.mem_append.1 hl with hl | hl
      · exact hplaced.1 (List.mem_filterMap.2 ⟨i, hi, by simpa using hl⟩)
      · exact targets_weave h i hi l hl)
    rw [UInt32.le_iff_toNat_le, hsucc (by omega), hsucc (by omega), hnumber]
    omega
  have hnext : (m.weave frames).body.nextLabel =
      (Body.ofList (m.weave frames).body.instructions).nextLabel := by
    rw [Body.nextLabel_ofList hmem hle, nextLabel_weave, hcount, UInt32.add_assoc, UInt32.ofNat_add]
    rfl
  generalize (m.weave frames).body = body at hnext
  obtain ⟨instructions, nextLabel⟩ := body
  dsimp only at hnext
  rw [hnext]
  rfl

end Method

end Resumable
