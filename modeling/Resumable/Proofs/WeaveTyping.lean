import Resumable.Proofs.Fitting
import Resumable.Proofs.WeaveLabels

/-!
# Typing resumable methods

In its own code a resumable method has the frames of the method that it was made from, with the
capability in the first of four more slots.  The frames of the code that saves and restores are
between those.
-/

namespace Resumable

/-- The frame with more local slots after its own. -/
def Frame.extend (f : Frame) (slots : List FrameValue) : Frame := ⟨f.locals ++ slots, f.stack⟩

namespace Frame

variable {f g : Frame} {slots slots' : List FrameValue} {n : Nat}

theorem extend_below_extend (h : f.Below g) (hslots : List.Forall₂ FrameValue.Below slots slots') :
    (f.extend slots).Below (g.extend slots') :=
  ⟨forall₂_append h.locals hslots, h.stack⟩

theorem WellFormed.extend (h : f.WellFormed n) (narrow : ∀ v ∈ slots, ¬ v.isWide)
    (proper : ∀ v ∈ slots, v.IsProper) : (f.extend slots).WellFormed (n + slots.length) where
  localsLength := by simp [Frame.extend, h.localsLength]
  wide := h.wide.append (paired_of_narrow narrow)
  known := h.known
  localsProper v hv := by
    rcases List.mem_append.1 hv with hv | hv
    · exact h.localsProper v hv
    · exact proper v hv
  stackProper := h.stackProper

/-- The last local of a frame isn't wide. -/
theorem WellFormed.not_isWide_last (h : f.WellFormed n) {u : FrameValue}
    (hu : (f.locals ++ slots)[n - 1]? = some u) (hslots : ∀ v ∈ slots, ¬ v.isWide) :
    ¬ u.isWide := by
  intro hw
  by_cases hn : n = 0
  · have hnil : f.locals = [] := List.length_eq_zero_iff.1 (h.localsLength.trans hn)
    rw [hnil, List.nil_append] at hu
    exact hslots u (List.mem_of_getElem? hu) hw
  · have hlt : n - 1 < f.locals.length := by
      rw [h.localsLength]
      omega
    rw [List.getElem?_append_left hlt] at hu
    have hnext := (List.getElem?_eq_some_iff.1 (h.wide _ u hu hw)).1
    rw [h.localsLength] at hnext
    omega

end Frame

namespace Snapshot

/-- The slots of a resumable method's own code while its original code runs. -/
def idleSlots : List FrameValue := [capabilityValue, .top, .top, .top]

/-- The slots of a resumable method's own code when a frame has been saved or restored. -/
def savedSlots : List FrameValue := [capabilityValue, arrayValue, arrayValue, .top]

/-- The slots of a resumable method's own code when it has popped its state. -/
def poppedSlots : List FrameValue := [capabilityValue, arrayValue, arrayValue, stateValue]

theorem isProper_capabilityValue : capabilityValue.IsProper := by
  simp [capabilityValue, FrameValue.IsProper, Capability.type, ValueType.isReference]

theorem isProper_arrayValue : arrayValue.IsProper := by
  simp [arrayValue, FrameValue.IsProper, Capability.snapshotType, ValueType.isReference]

theorem isProper_stateValue : stateValue.IsProper := by
  simp [stateValue, FrameValue.IsProper, Capability.stateType, ValueType.isReference]

theorem isProper_top : FrameValue.top.IsProper := by simp [FrameValue.IsProper]

theorem isProper_idleSlots : ∀ v ∈ idleSlots, v.IsProper := by
  simp [idleSlots, isProper_capabilityValue, isProper_top]

theorem isProper_savedSlots : ∀ v ∈ savedSlots, v.IsProper := by
  simp [savedSlots, isProper_capabilityValue, isProper_arrayValue, isProper_top]

theorem isProper_poppedSlots : ∀ v ∈ poppedSlots, v.IsProper := by
  simp [poppedSlots, isProper_capabilityValue, isProper_arrayValue, isProper_stateValue]

theorem narrow_idleSlots : ∀ v ∈ idleSlots, ¬ v.isWide := by
  simp [idleSlots, capabilityValue, FrameValue.isWide]

theorem narrow_savedSlots : ∀ v ∈ savedSlots, ¬ v.isWide := by
  simp [savedSlots, capabilityValue, arrayValue, FrameValue.isWide]

theorem narrow_poppedSlots : ∀ v ∈ poppedSlots, ¬ v.isWide := by
  simp [poppedSlots, capabilityValue, arrayValue, stateValue, FrameValue.isWide]

/-- What has been saved or restored may be forgotten. -/
theorem savedSlots_below_idleSlots : List.Forall₂ FrameValue.Below savedSlots idleSlots :=
  .cons (.refl isProper_capabilityValue) (.cons (FrameValue.below_top _)
    (.cons (FrameValue.below_top _) (.cons (FrameValue.below_top _) .nil)))

theorem below_savedSlots (v : FrameValue) :
    List.Forall₂ FrameValue.Below [capabilityValue, arrayValue, arrayValue, v] savedSlots :=
  .cons (.refl isProper_capabilityValue) (.cons (.refl isProper_arrayValue)
    (.cons (.refl isProper_arrayValue) (.cons (FrameValue.below_top _) .nil)))

end Snapshot

namespace Method

/-- True if the first method has four more local slots than the second one, and returns the same. -/
structure Widens (w m : Method) : Prop where
  returns : w.type.returns = m.type.returns
  maxLocals : w.maxLocals.toNat = m.maxLocals.toNat + 4

variable {m w : Method} {owner : String} {f g : Frame} {i : Instruction}

/-- What an instruction does to a frame doesn't depend on slots that come after the method's own. -/
theorem Rule.extend (h : m.Rule f i g) (hw : w.Widens m)
    (hlength : f.locals.length = m.maxLocals.toNat) (slots : List FrameValue) :
    w.Rule (f.extend slots) i (g.extend slots) := by
  have hmax := hw.maxLocals
  cases h with
  | fixed effect operands => exact .fixed effect operands
  | shuffle moves => exact .shuffle moves
  | load inRange found hasKind =>
      refine .load (by omega) ?_ hasKind
      rw [List.getElem?_append_left (List.getElem?_eq_some_iff.1 found).1]
      exact found
  | @store kind index v locals stack hasKind inRange =>
      have hstore : w.Rule ⟨locals ++ slots, v :: stack⟩ (.store kind index)
          ⟨Frame.storeLocals (locals ++ slots) index.toNat v, stack⟩ :=
        .store hasKind (by omega)
      rwa [Snapshot.storeLocals_append (hlength ▸ inRange)] at hstore
  | increment inRange found =>
      refine .increment (by omega) ?_
      rw [List.getElem?_append_left (List.getElem?_eq_some_iff.1 found).1]
      exact found
  | invoke operands => exact .invoke operands
  | arrayLength array => exact .arrayLength array
  | arrayLoad array => exact .arrayLoad array
  | arrayStore hasKind array => exact .arrayStore hasKind array
  | leaveNothing returns => exact .leaveNothing (hw.returns.trans returns)
  | leave returns fits => exact .leave (hw.returns.trans returns) fits

/-- The slots of a resumable method's own code are the last ones that it has. -/
theorem Widens.follows (hw : w.Widens m) (room : m.maxLocals.toNat + 4 ≤ 65535)
    {own : List FrameValue} (hown : own.length = m.maxLocals.toNat) :
    m.slotTable.Follows w own.length := by
  have slot (k : Nat) (hk : k < 4) :
      (UInt16.ofNat (min 0xFFFF (m.maxLocals.toNat + k))).toNat = own.length + k := by
    rw [UInt16.toNat_ofNat', hown, Nat.min_eq_right (by omega)]
    exact Nat.mod_eq_of_lt (by omega)
  exact ⟨slot 0 (by omega), slot 1 (by omega), slot 2 (by omega), slot 3 (by omega),
    by rw [hw.maxLocals, hown]⟩

/-- The value with which a method leaves early fits what it returns. -/
theorem zero_below_ofType (type : ValueType) :
    (FrameValue.ofType type).isAssignableFrom (constantValue (Snapshot.zero type.kind)) := by
  cases type <;> rfl

variable {labels : LabelFrames} {after : Option Frame}

/-- Leaving the method early. -/
theorem fits_leaveEarly (labels : LabelFrames) (hf : f.WellFormed w.maxLocals.toNat)
    (after : Option Frame) :
    ∃ fs, w.Fits labels (some f) (Snapshot.leaveEarly w.type.returns) fs after := by
  cases hreturns : w.type.returns with
  | none => exact ⟨_, .single (.away rfl rfl (.leaveNothing hreturns) hf.known nofun)⟩
  | some type =>
      have hconst : w.Rule f (.const (Snapshot.zero type.kind))
          ⟨f.locals, constantValue (Snapshot.zero type.kind) :: f.stack⟩ :=
        Rule.noOperands rfl rfl
      have hleave : w.Rule ⟨f.locals, constantValue (Snapshot.zero type.kind) :: f.stack⟩
          (.leave (some type.kind)) f := .leave hreturns (zero_below_ofType type)
      exact ⟨_, .cons (.plain rfl hconst hf)
        (.single (.away rfl rfl hleave (hconst.wellFormed hf).known nofun))⟩

/-- The frame at a position of a resumable method's original code. -/
def idleFrame (frames : Frames) (p : Nat) : Option Frame :=
  (frames.at? p).map fun f => f.extend Snapshot.idleSlots

end Method

/-- The frames at the labels of a resumable method whose locals on entry are known. -/
structure LabelFrames.Describes (labels : LabelFrames) (m : Method) (frames : Frames)
    (entry : List FrameValue) : Prop where
  start : labels (m.prologueLabels frames).start = Method.idleFrame frames 0
  loading : labels (m.prologueLabels frames).loading = some ⟨entry ++ Snapshot.idleSlots, []⟩
  saving : labels (m.prologueLabels frames).saving = some ⟨entry ++ Snapshot.idleSlots, []⟩
  badMode : labels (m.prologueLabels frames).badMode = some ⟨entry ++ Snapshot.idleSlots, []⟩
  badPoint : labels (m.prologueLabels frames).badPoint = some ⟨entry ++ Snapshot.poppedSlots, []⟩
  points : ∀ here ∈ (m.prologueLabels frames).points,
    labels here = some ⟨entry ++ Snapshot.poppedSlots, []⟩
  restore : ∀ point ∈ m.points frames,
    labels point.restoreLabel = some ⟨point.frame.locals ++ Snapshot.savedSlots, point.restoredStack⟩
  proceed : ∀ site ∈ m.sites frames, site.1.kind = .save →
    labels site.2 = Method.idleFrame frames (site.1.position + 1)
  own : ∀ l p, m.body.get? p = some (.label l) → labels l = Method.idleFrame frames p

namespace Method

open Snapshot

variable {m w : Method} {owner : String} {f g : Frame} {i : Instruction} {frames : Frames}
  {entry : List FrameValue} {labels : LabelFrames}

theorem idleFrame_eq_some {p : Nat} (h : frames.at? p = some f) :
    idleFrame frames p = some (f.extend idleSlots) := by simp [idleFrame, h]

theorem Analyzed.wellFormed_point (h : m.Analyzed owner frames) {point : ContinuationPoint}
    (hpoint : point ∈ m.points frames) : point.frame.WellFormed m.maxLocals.toNat :=
  h.wellFormed _ _ (of_mem_points hpoint).1

theorem mem_restoredStack {point : ContinuationPoint} {v : FrameValue}
    (hv : v ∈ point.restoredStack) : v ∈ point.frame.stack := by
  simp only [ContinuationPoint.restoredStack] at hv
  split at hv
  · exact List.mem_of_mem_drop hv
  · exact hv

/-- A frame of the method with the slots of the resumable method's own code. -/
theorem Widens.wellFormed (hw : w.Widens m) {locals stack slots : List FrameValue}
    (hlocals : Frame.WellFormed m.maxLocals.toNat ⟨locals, stack⟩) (hlength : slots.length = 4)
    (narrow : ∀ v ∈ slots, ¬ v.isWide) (proper : ∀ v ∈ slots, v.IsProper) :
    Frame.WellFormed w.maxLocals.toNat ⟨locals ++ slots, stack⟩ := by
  have := hlocals.extend narrow proper
  rwa [hlength, ← hw.maxLocals] at this

/-- Restoring a frame and going on from its point. -/
theorem fits_loadBlock (h : m.Analyzed owner frames) (hw : w.Widens m)
    (room : m.maxLocals.toNat + 4 ≤ 65535) (hlabels : labels.Describes m frames entry)
    (hentry : Frame.WellFormed m.maxLocals.toNat ⟨entry, []⟩) {point : ContinuationPoint}
    {here : Label} (hpoint : point ∈ m.points frames)
    (hhere : here ∈ (m.prologueLabels frames).points) (after : Option Frame) :
    ∃ fs, w.Fits labels (some ⟨entry ++ poppedSlots, []⟩) (point.loadBlock m.slotTable here) fs
      after := by
  have hf := h.wellFormed_point hpoint
  have hstack (v : FrameValue) (hv : v ∈ point.restoredStack) : v ≠ .top ∧ v.IsProper :=
    hf.stackMember (mem_restoredStack hv)
  have hpopped : Frame.WellFormed w.maxLocals.toNat ⟨entry ++ poppedSlots, []⟩ :=
    hw.wellFormed hentry rfl narrow_poppedSlots isProper_poppedSlots
  have hload : w.Steps ⟨entry ++ poppedSlots, []⟩ (loadStack m.slotTable point.restoredStack)
      ⟨entry ++ poppedSlots, point.restoredStack⟩ :=
    steps_loadStack (hw.follows room hentry.localsLength) hstack
  obtain ⟨restored, hrestored, hlocals⟩ : ∃ restored,
      List.Forall₂ FrameValue.Below restored point.frame.locals ∧
        w.Steps ⟨entry ++ poppedSlots, point.restoredStack⟩
          (loadLocals m.slotTable point.frame.locals)
          ⟨restored ++ poppedSlots, point.restoredStack⟩ :=
    steps_loadLocals (hw.follows room hf.localsLength)
      (hentry.localsLength.trans hf.localsLength.symm) hf.wide hf.localsProper
  obtain ⟨fs₁, hfs₁⟩ := hload.fits labels (plain_loadStack _ _) hpopped
  obtain ⟨fs₂, hfs₂⟩ := hlocals.fits labels (plain_loadLocals _ _) (hload.wellFormed hpopped)
  have hgoto : w.Allows labels (some ⟨restored ++ poppedSlots, point.restoredStack⟩)
      (.goto point.restoreLabel) after := by
    refine .away rfl rfl (Rule.noOperands rfl rfl) (fun v hv => (hstack v hv).1) ?_
    intro l hl
    obtain rfl : l = point.restoreLabel := by simpa [Instruction.targets] using hl
    refine ⟨_, hlabels.restore point hpoint, forall₂_append hrestored (below_savedSlots _), ?_⟩
    exact Frame.forall₂_below_refl fun v hv => (hstack v hv).2
  have hhead : w.Allows labels (some ⟨entry ++ poppedSlots, []⟩) (.label here)
      (some ⟨entry ++ poppedSlots, []⟩) :=
    .marked (hlabels.points here hhere) (by simp) (.refl hpopped)
  exact ⟨_, .cons hhead ((hfs₁.append hfs₂).append (.single hgoto))⟩

/-- An instruction that isn't at a point leads on as it did before. -/
theorem allows_of_analyzed (h : m.Analyzed owner frames) (hw : w.Widens m)
    (hlabels : labels.Describes m frames entry) {p : Nat} {i : Instruction}
    (hi : m.body.get? p = some i) :
    w.Allows labels (idleFrame frames p) i (idleFrame frames (p + 1)) := by
  have hlabel (l : Label) (hl : i = .label l) : labels l = idleFrame frames p :=
    hlabels.own l p (hl ▸ hi)
  cases hf : frames.at? p with
  | none =>
      have hnone : idleFrame frames p = none := by simp [idleFrame, hf]
      rw [hnone] at hlabel ⊢
      exact .unreached hlabel
  | some f =>
      have hfw := h.wellFormed p f hf
      obtain ⟨g, hrule, hleads⟩ := h.typing.step p f i hf hi
      have arrives (q : Nat) (hq : m.body.Leads p q) :
          ∃ f', idleFrame frames q = some f' ∧ (g.extend idleSlots).Below f' := by
        obtain ⟨f', hf', hbelow⟩ := hleads q hq
        exact ⟨_, idleFrame_eq_some hf',
          Frame.extend_below_extend hbelow (Frame.forall₂_below_refl isProper_idleSlots)⟩
      rw [idleFrame_eq_some hf] at hlabel ⊢
      refine ⟨hlabel, fun f' hf' => ?_, fun f' hf' => ?_⟩
      · cases hf'
        exact hfw.known
      · cases hf'
        refine ⟨_, hrule.extend hw hfw.localsLength idleSlots,
          fun hfalls => arrives _ (.next hi hfalls), fun l hl => ?_⟩
        obtain ⟨places, hplaces⟩ := h.labels
        obtain ⟨q, hq⟩ := Body.position?_of_mem_targets hplaces hi hl
        rw [hlabels.own l q (Body.get?_of_position? hq)]
        exact arrives q (.jump hi hl hq)

/-- Saving a frame before a call. -/
theorem fits_saveBlock (h : m.Analyzed owner frames) (hw : w.Widens m)
    (room : m.maxLocals.toNat + 4 ≤ 65535) (hlabels : labels.Describes m frames entry)
    {point : ContinuationPoint} (hpoint : point ∈ m.points frames) (hkind : point.kind = .save) :
    ∃ fs, w.Fits labels (some (point.frame.extend idleSlots)) (point.saveBlock m.slotTable) fs
      (some (point.frame.extend savedSlots)) := by
  have hf := h.wellFormed_point hpoint
  have ht := hw.follows room hf.localsLength
  have narrow : ¬ capabilityValue.isWide := by simp [capabilityValue, FrameValue.isWide]
  have narrow' : ¬ arrayValue.isWide := by simp [arrayValue, FrameValue.isWide]
  have hidle := hw.wellFormed hf rfl narrow_idleSlots isProper_idleSlots
  have hsaved := hw.wellFormed hf rfl narrow_savedSlots isProper_savedSlots
  obtain ⟨x, hsave⟩ : ∃ x, w.Steps (point.frame.extend idleSlots)
      (saveStack m.slotTable point.frame.stack)
      ⟨point.frame.locals ++ [capabilityValue, arrayValue, .top, x], []⟩ :=
    steps_saveStack ht narrow (by simp [FrameValue.isWide]) hf.known
  have hload : w.Steps ⟨point.frame.locals ++ [capabilityValue, arrayValue, .top, x], []⟩
      (loadStack m.slotTable point.frame.stack)
      ⟨point.frame.locals ++ [capabilityValue, arrayValue, .top, x], point.frame.stack⟩ :=
    steps_loadStack ht fun v hv => hf.stackMember hv
  have hlocals : w.Steps
      ⟨point.frame.locals ++ [capabilityValue, arrayValue, .top, x], point.frame.stack⟩
      (saveLocals m.slotTable point.frame.locals)
      ⟨point.frame.locals ++ [capabilityValue, arrayValue, arrayValue, x], point.frame.stack⟩ :=
    steps_saveLocals ht narrow'
  have hplain := plain_append.2 ⟨plain_append.2 ⟨plain_saveStack m.slotTable point.frame.stack,
    plain_loadStack m.slotTable point.frame.stack⟩, plain_saveLocals m.slotTable point.frame.locals⟩
  obtain ⟨fs, hfs⟩ := ((hsave.append hload).append hlocals).fits labels hplain hidle
  -- What the scratch slot holds is forgotten at the label, where it depends on the path.
  have hbelow : Frame.Below
      ⟨point.frame.locals ++ [capabilityValue, arrayValue, arrayValue, x], point.frame.stack⟩
      (point.frame.extend savedSlots) :=
    ⟨forall₂_append (Frame.forall₂_below_refl hf.localsProper) (below_savedSlots x),
      Frame.forall₂_below_refl hf.stackProper⟩
  have habove := hfs.above (by simp [saveLocals, newArray]) hbelow
  have hrestore := hlabels.restore point hpoint
  simp only [ContinuationPoint.restoredStack, hkind] at hrestore
  exact ⟨_, habove.append (.single (.marked hrestore hf.known (.refl hsaved)))⟩

/-- Pushing a saved frame and leaving early. -/
theorem fits_pushState (labels : LabelFrames) (hw : w.Widens m) (room : m.maxLocals.toNat + 4 ≤ 65535)
    (hg : g.WellFormed m.maxLocals.toNat) (id : Nat) (after : Option Frame) :
    ∃ fs, w.Fits labels (some (g.extend savedSlots))
      (pushState m.slotTable id ++ leaveEarly m.type.returns) fs after := by
  have hsaved := hw.wellFormed hg rfl narrow_savedSlots isProper_savedSlots
  have hpush : w.Steps (g.extend savedSlots) (pushState m.slotTable id) (g.extend savedSlots) :=
    steps_pushState (hw.follows room hg.localsLength) id
  obtain ⟨fs₁, hfs₁⟩ := hpush.fits labels (plain_pushState _ _) hsaved
  obtain ⟨fs₂, hfs₂⟩ := fits_leaveEarly labels hsaved after
  exact ⟨_, hfs₁.append (hw.returns ▸ hfs₂)⟩

/-- Leaving after a call in saving mode, and going on otherwise. -/
theorem fits_afterSave (h : m.Analyzed owner frames) (hw : w.Widens m)
    (room : m.maxLocals.toNat + 4 ≤ 65535) (hlabels : labels.Describes m frames entry)
    {site : ContinuationPoint × Label} (hsite : site ∈ m.sites frames) (hkind : site.1.kind = .save)
    (hg : g.WellFormed m.maxLocals.toNat) (hadmits : frames.Admits (site.1.position + 1) g) :
    ∃ fs, w.Fits labels (some (g.extend savedSlots)) (site.1.afterSave m.slotTable site.2) fs
      (idleFrame frames (site.1.position + 1)) := by
  obtain ⟨f', hf', hbelow⟩ := hadmits
  have hproceed := hlabels.proceed site hsite hkind
  have hreturns := (of_mem_points (mem_points_of_mem_sites hsite)).2.1
  rw [idleFrame_eq_some hf'] at hproceed ⊢
  have hsaved := hw.wellFormed hg rfl narrow_savedSlots isProper_savedSlots
  have hidle := hw.wellFormed (h.wellFormed _ _ hf') rfl narrow_idleSlots isProper_idleSlots
  have hmode : w.Steps (g.extend savedSlots)
      (getMode m.slotTable ++ [.const (.int Capability.saving)])
      ⟨g.locals ++ savedSlots, .int :: .int :: g.stack⟩ :=
    (steps_getMode (hw.follows room hg.localsLength)).append (.single (Rule.noOperands rfl rfl))
  have hplain : Plain (getMode m.slotTable ++ [.const (.int Capability.saving)]) :=
    plain_append.2 ⟨plain_getMode _, rfl⟩
  obtain ⟨fs₁, hfs₁⟩ := hmode.fits labels hplain hsaved
  have hcompare : w.Allows labels (some ⟨g.locals ++ savedSlots, .int :: .int :: g.stack⟩)
      (.ifCompare .notEqual site.2) (some (g.extend savedSlots)) := by
    refine ⟨nofun, fun f hf => ?_, fun f hf => ?_⟩
    · cases hf
      exact (hmode.wellFormed hsaved).known
    · cases hf
      refine ⟨_, Rule.twoOperands rfl rfl rfl rfl, fun _ => ⟨_, rfl, .refl hsaved⟩, fun l hl => ?_⟩
      obtain rfl : l = site.2 := by simpa [Instruction.targets] using hl
      exact ⟨_, hproceed, Frame.extend_below_extend hbelow savedSlots_below_idleSlots⟩
  obtain ⟨fs₂, hfs₂⟩ := fits_pushState labels hw room hg site.1.id
    (some (f'.extend idleSlots))
  have hmark : w.Allows labels (some (f'.extend idleSlots)) (.label site.2)
      (some (f'.extend idleSlots)) := .marked hproceed hidle.known (.refl hidle)
  have hcode : site.1.afterSave m.slotTable site.2 =
      getMode m.slotTable ++ [.const (.int Capability.saving)] ++
        [.ifCompare .notEqual site.2] ++
          (pushState m.slotTable site.1.id ++ leaveEarly m.type.returns ++ [.label site.2]) := by
    simp [ContinuationPoint.afterSave, hreturns]
  rw [hcode]
  exact ⟨_, (hfs₁.append (.single hcompare)).append (hfs₂.append (.single hmark))⟩

theorem fallsThrough_of_isSave (hi : i.isSave) : i.fallsThrough := by
  cases i <;> first | rfl | cases hi

/-- What an instruction with which a method suspends itself does. -/
theorem rule_isSuspend (hi : i.isSuspend) (h : m.Rule f i g) :
    ∃ v, v.kind? = some .reference ∧ f = ⟨g.locals, v :: g.stack⟩ := by
  obtain rfl := Body.eq_invoke_of_isSuspend hi
  cases h with
  | invoke operands =>
      cases operands with
      | cons hv hrest =>
          cases hrest
          exact ⟨_, FrameValue.Below.kind hv (FrameValue.kind_ofType _), rfl⟩
  | fixed effect operands => cases effect
  | shuffle moves => cases moves

/-- Saving the frame and leaving instead of suspending. -/
theorem fits_suspendBlock (h : m.Analyzed owner frames) (hw : w.Widens m)
    (room : m.maxLocals.toNat + 4 ≤ 65535) (hlabels : labels.Describes m frames entry)
    {point : ContinuationPoint} (hpoint : point ∈ m.points frames)
    (hkind : point.kind = .suspend) :
    ∃ fs, w.Fits labels (some (point.frame.extend idleSlots)) (point.suspendBlock m.slotTable) fs
      (idleFrame frames (point.position + 1)) := by
  obtain ⟨hat, hreturns, i, hi, hsuspend⟩ := of_mem_points hpoint
  rw [hkind] at hsuspend
  obtain ⟨g, hrule, hleads⟩ := h.typing.step _ _ i hat hi
  have hfalls : i.fallsThrough := by
    rw [Body.eq_invoke_of_isSuspend hsuspend]
    rfl
  obtain ⟨f', hf', hbelow⟩ := hleads _ (.next hi hfalls)
  obtain ⟨v, hv, hf⟩ := rule_isSuspend hsuspend hrule
  have hrestored : point.restoredStack = g.stack := by
    simp [ContinuationPoint.restoredStack, hkind, hf]
  have hlocals : point.frame.locals = g.locals := by rw [hf]
  have hfw := h.wellFormed_point hpoint
  have hg := hrule.wellFormed hfw
  have ht := hw.follows room hg.localsLength
  have hidle := hw.wellFormed hfw rfl narrow_idleSlots isProper_idleSlots
  have hsaved := hw.wellFormed hg rfl narrow_savedSlots isProper_savedSlots
  have hpop : w.Rule (point.frame.extend idleSlots) .pop (g.extend idleSlots) := by
    rw [hf]
    exact .shuffle (.pop (not_isWide_of_kind hv))
  obtain ⟨x, hsave⟩ : ∃ x, w.Steps (g.extend idleSlots) (saveStack m.slotTable g.stack)
      ⟨g.locals ++ [capabilityValue, arrayValue, .top, x], []⟩ :=
    steps_saveStack ht (by simp [capabilityValue, FrameValue.isWide]) (by simp [FrameValue.isWide])
      hg.known
  have hsaveLocals : w.Steps ⟨g.locals ++ [capabilityValue, arrayValue, .top, x], []⟩
      (saveLocals m.slotTable g.locals)
      ⟨g.locals ++ [capabilityValue, arrayValue, arrayValue, x], []⟩ :=
    steps_saveLocals ht (by simp [arrayValue, FrameValue.isWide])
  have hpush : w.Steps ⟨g.locals ++ [capabilityValue, arrayValue, arrayValue, x], []⟩
      (pushState m.slotTable point.id)
      ⟨g.locals ++ [capabilityValue, arrayValue, arrayValue, x], []⟩ := steps_pushState ht point.id
  have hset : w.Steps ⟨g.locals ++ [capabilityValue, arrayValue, arrayValue, x], []⟩
      (setMode m.slotTable Capability.saving)
      ⟨g.locals ++ [capabilityValue, arrayValue, arrayValue, x], []⟩ :=
    steps_setMode ht Capability.saving
  have hsteps := (((Steps.single hpop).append hsave).append hsaveLocals).append hpush |>.append hset
  have hplain : Plain ([.pop] ++ saveStack m.slotTable g.stack ++ saveLocals m.slotTable g.locals ++
      pushState m.slotTable point.id ++ setMode m.slotTable Capability.saving) :=
    plain_append.2 ⟨plain_append.2 ⟨plain_append.2 ⟨plain_append.2
      ⟨rfl, plain_saveStack _ _⟩, plain_saveLocals _ _⟩,
        plain_pushState _ _⟩, plain_setMode _ _⟩
  obtain ⟨fs₁, hfs₁⟩ := hsteps.fits labels hplain hidle
  obtain ⟨fs₂, hfs₂⟩ := fits_leaveEarly labels (hsteps.wellFormed hidle)
    (some (g.extend savedSlots))
  have hrestore := hlabels.restore point hpoint
  rw [hlocals, hrestored] at hrestore
  have hmark : w.Allows labels (some (g.extend savedSlots)) (.label point.restoreLabel)
      (some (f'.extend idleSlots)) :=
    .marked hrestore hg.known (Frame.extend_below_extend hbelow savedSlots_below_idleSlots)
  have hcode : point.suspendBlock m.slotTable =
      [.pop] ++ saveStack m.slotTable g.stack ++ saveLocals m.slotTable g.locals ++
        pushState m.slotTable point.id ++ setMode m.slotTable Capability.saving ++
          leaveEarly w.type.returns ++ [.label point.restoreLabel] := by
    simp [ContinuationPoint.suspendBlock, hrestored, hlocals, hreturns, hw.returns]
  rw [hcode, idleFrame_eq_some hf']
  exact ⟨_, (hfs₁.append hfs₂).append (.single hmark)⟩

/-- A block leads from the frame at its instruction to the one at the next instruction.  If the
instruction stays, it has its own frame there, with some values in the other slots. -/
theorem fits_block (h : m.Analyzed owner frames) (hw : w.Widens m)
    (room : m.maxLocals.toNat + 4 ≤ 65535) (hlabels : labels.Describes m frames entry) {p : Nat}
    (hi : m.body.get? p = some i) :
    ∃ fs, w.Fits labels (idleFrame frames p) (m.block frames p i) fs (idleFrame frames (p + 1)) ∧
      (m.Survives frames p → ∃ slots,
        fs.at? (m.before frames p).length = (frames.at? p).map fun f => f.extend slots) := by
  simp only [block, before]
  cases hsite : m.site? frames p with
  | none =>
      refine ⟨_, .single (allows_of_analyzed h hw hlabels hi), fun _ => ⟨idleSlots, ?_⟩⟩
      simp [Frames.at?, idleFrame]
  | some site =>
      obtain ⟨hmem, rfl⟩ := site?_eq_some.1 hsite
      have hpoint := mem_points_of_mem_sites hmem
      obtain ⟨hat, -, j, hj, hkind⟩ := of_mem_points hpoint
      obtain rfl : i = j := Option.some.inj (hi.symm.trans hj)
      rw [idleFrame_eq_some hat]
      cases hk : site.1.kind with
      | suspend =>
          simp only [ContinuationPoint.block, hk]
          obtain ⟨fs, hfs⟩ := fits_suspendBlock h hw room hlabels hpoint hk
          exact ⟨fs, hfs, fun hsurvives => absurd hk (hsurvives _ _ hsite)⟩
      | save =>
          rw [hk] at hkind
          simp only [ContinuationPoint.block, ContinuationPoint.before, hk]
          have hfw := h.wellFormed_point hpoint
          obtain ⟨g, hrule, hleads⟩ := h.typing.step _ _ i hat hi
          have hg := hrule.wellFormed hfw
          obtain ⟨hplaced, htargets⟩ := placed?_eq_none_of_site hsite hi
          have hfalls := fallsThrough_of_isSave hkind
          obtain ⟨fs₁, hfs₁⟩ := fits_saveBlock h hw room hlabels hpoint hk
          have hcall : w.Allows labels (some (site.1.frame.extend savedSlots)) i
              (some (g.extend savedSlots)) :=
            .plain (Instruction.isPlain_iff.2 ⟨hplaced, htargets, hfalls⟩)
              (hrule.extend hw hfw.localsLength savedSlots)
              (hw.wellFormed hfw rfl narrow_savedSlots isProper_savedSlots)
          obtain ⟨fs₂, hfs₂⟩ := fits_afterSave h hw room hlabels hmem hk hg
            (hleads _ (.next hi hfalls))
          refine ⟨_, hfs₁.append (.cons hcall hfs₂), fun _ => ⟨savedSlots, ?_⟩⟩
          rw [hat, ← hfs₁.length_eq]
          simp [Frames.at?]

/-- A method that may suspend gets the capability in the first slot after its receiver. -/
theorem getElem?_param (hm : m.type.isEligible) {entry : Frame}
    (hentry : m.entryFrame owner = .ok entry) :
    entry.locals[m.slotTable.param.toNat]? = some capabilityValue := by
  obtain ⟨params, hparams⟩ : ∃ params, m.type.params = Capability.type :: params := by
    simp only [MethodType.isEligible, decide_eq_true_eq] at hm
    exact List.head?_eq_some_iff.1 hm
  have hlocals : entry.locals = m.entryLocals owner ++
      List.replicate (m.maxLocals.toNat - (m.entryLocals owner).length) .top := by
    simp only [entryFrame] at hentry
    split at hentry
    · cases hentry
    · cases hentry
      rfl
  have hcapability : FrameValue.ofType Capability.type = capabilityValue := rfl
  have hnarrow : capabilityValue.isWide = false := rfl
  rw [hlocals, entryLocals, hparams]
  cases hstatic : m.isStatic with
  | true =>
      have : m.slotTable.param = 0 := by
        simp only [isStatic] at hstatic
        simp [slotTable, SlotTable.make, hstatic]
      simp [this, hcapability, hnarrow]
  | false =>
      have : m.slotTable.param = 1 := by
        simp only [isStatic] at hstatic
        simp [slotTable, SlotTable.make, hstatic]
      simp [this, hcapability, hnarrow]

/-- A resumable method starts with nothing in the slots of its own code. -/
theorem entryFrame_extend (hw : w.Widens m) (htype : w.type = m.type)
    (hstatic : w.isStatic = m.isStatic) {entry : Frame} (hentry : m.entryFrame owner = .ok entry) :
    w.entryFrame owner = .ok ⟨entry.locals ++ List.replicate 4 .top, []⟩ := by
  have hlocals := entryLocals_congr htype hstatic owner
  have hmax := hw.maxLocals
  simp only [entryFrame, hlocals] at hentry ⊢
  split at hentry
  · cases hentry
  · cases hentry
    rw [if_neg (by omega)]
    have : w.maxLocals.toNat - (m.entryLocals owner).length =
        m.maxLocals.toNat - (m.entryLocals owner).length + 4 := by omega
    simp [this, List.replicate_add]

/-- Throwing a text. -/
theorem fits_fail {l : Label} (message : String) (hlabel : labels l = some f)
    (hf : f.WellFormed w.maxLocals.toNat) (after : Option Frame) :
    ∃ fs, w.Fits labels (some f) (.label l :: fail message) fs after := by
  have hconst : w.Rule f (.const (.string message))
      ⟨f.locals, .reference (.object stringTypeName) :: f.stack⟩ := Rule.noOperands rfl rfl
  have hthrow : w.Rule ⟨f.locals, .reference (.object stringTypeName) :: f.stack⟩ .throw f :=
    Rule.oneOperand rfl rfl rfl
  exact ⟨_, .cons (.marked hlabel hf.known (.refl hf)) (.cons (.plain rfl hconst hf)
    (.single (.away rfl rfl hthrow (hconst.wellFormed hf).known nofun)))⟩

/-- Restoring the frames of all points. -/
theorem fits_loadBlocks (h : m.Analyzed owner frames) (hw : w.Widens m)
    (room : m.maxLocals.toNat + 4 ≤ 65535) (hlabels : labels.Describes m frames entry)
    (hentry : Frame.WellFormed m.maxLocals.toNat ⟨entry, []⟩)
    {blocks : List (ContinuationPoint × Label)}
    (hblocks : ∀ block ∈ blocks, block.1 ∈ m.points frames ∧
      block.2 ∈ (m.prologueLabels frames).points) (after : Option Frame) :
    ∃ before fs, w.Fits labels before
      (blocks.flatMap fun block => block.1.loadBlock m.slotTable block.2) fs after := by
  induction blocks with
  | nil => exact ⟨after, [], .nil _⟩
  | cons block blocks ih =>
      rw [List.forall_mem_cons] at hblocks
      obtain ⟨next, fs₂, hfs₂⟩ := ih hblocks.2
      obtain ⟨fs₁, hfs₁⟩ := fits_loadBlock h hw room hlabels hentry hblocks.1.1 hblocks.1.2 next
      exact ⟨_, _, hfs₁.append hfs₂⟩

/-- The prologue puts the capability into its slot, and looks at the mode. -/
theorem fits_dispatch (labels : LabelFrames) (hm : m.type.isEligible) (hw : w.Widens m)
    (room : m.maxLocals.toNat + 4 ≤ 65535) {entry : Frame}
    (hentry : m.entryFrame owner = .ok entry) :
    ∃ fs, w.Fits labels (some ⟨entry.locals ++ List.replicate 4 .top, []⟩) m.dispatch fs
      (some ⟨entry.locals ++ idleSlots, [.int]⟩) := by
  obtain ⟨hwf, -⟩ := wellFormed_of_entryFrame hentry
  have hentry' : Frame.WellFormed m.maxLocals.toNat ⟨entry.locals, []⟩ :=
    hwf.withStack (by simp)
  have ht := hw.follows room hwf.localsLength
  have hfresh : Frame.WellFormed w.maxLocals.toNat ⟨entry.locals ++ List.replicate 4 .top, []⟩ :=
    hw.wellFormed hentry' rfl (by simp [FrameValue.isWide]) (by simp [FrameValue.IsProper])
  have hparam := getElem?_param hm hentry
  have hload : w.Rule ⟨entry.locals ++ List.replicate 4 .top, []⟩ (loadReference m.slotTable.param)
      ⟨entry.locals ++ List.replicate 4 .top, [capabilityValue]⟩ := by
    refine rule_loadReference ?_ hfresh.localsLength rfl
    rw [List.getElem?_append_left (List.getElem?_eq_some_iff.1 hparam).1]
    exact hparam
  have hstore : w.Rule ⟨entry.locals ++ List.replicate 4 .top, [capabilityValue]⟩
      (storeReference m.slotTable.capability) ⟨entry.locals ++ idleSlots, []⟩ := by
    have hrule : w.Rule ⟨entry.locals ++ List.replicate 4 .top, [capabilityValue]⟩
        (storeReference m.slotTable.capability)
        ⟨(entry.locals ++ List.replicate 4 FrameValue.top).set m.slotTable.capability.toNat
          capabilityValue, []⟩ := by
      refine rule_storeReference (v := capabilityValue) ?_ hfresh.localsLength rfl fun u hu => ?_
      · rw [ht.capability]
        simp
      rw [ht.capability, hwf.localsLength] at hu
      exact hentry'.not_isWide_last hu (by simp [FrameValue.isWide])
    have hset : (entry.locals ++ List.replicate 4 FrameValue.top).set entry.locals.length
        capabilityValue = entry.locals ++ idleSlots := set_slot entry.locals _ 0 capabilityValue
    rwa [ht.capability, hset] at hrule
  have hplain : Plain m.dispatch := plain_append.2 ⟨rfl, plain_getMode _⟩
  exact ((Method.Steps.cons hload (.single hstore)).append (steps_getMode ht)).fits labels hplain
    hfresh

/-- The look at the mode leads to the method's start, or to the code for another mode. -/
theorem allows_modes (h : m.Analyzed owner frames) {entry : Frame}
    (hlabels : labels.Describes m frames entry.locals) (hentry : m.entryFrame owner = .ok entry)
    (hidle : Frame.WellFormed w.maxLocals.toNat ⟨entry.locals ++ idleSlots, []⟩) :
    w.Allows labels (some ⟨entry.locals ++ idleSlots, [.int]⟩)
      (.tableSwitch 0 (m.prologueLabels frames).badMode
        [(m.prologueLabels frames).start, (m.prologueLabels frames).saving,
          (m.prologueLabels frames).loading]) (some ⟨entry.locals ++ idleSlots, []⟩) := by
  obtain ⟨-, hempty⟩ := wellFormed_of_entryFrame hentry
  obtain ⟨f₀, hf₀, hbelow⟩ : frames.Admits 0 entry := by
    obtain ⟨entry', hentry', hadmits⟩ := h.entry
    obtain rfl : entry = entry' := Except.ok.inj (hentry.symm.trans hentry')
    exact hadmits
  refine .away rfl rfl (Rule.oneOperand rfl rfl rfl) (by simp) fun l hl => ?_
  simp only [Instruction.targets, List.mem_cons, List.not_mem_nil, or_false] at hl
  rcases hl with rfl | rfl | rfl | rfl
  · exact ⟨_, hlabels.badMode, .refl hidle⟩
  · refine ⟨_, hlabels.start.trans (idleFrame_eq_some hf₀), ?_⟩
    have hstack := hbelow.stack
    rw [hempty] at hstack
    exact ⟨forall₂_append hbelow.locals (Frame.forall₂_below_refl isProper_idleSlots), hstack⟩
  · exact ⟨_, hlabels.saving, .refl hidle⟩
  · exact ⟨_, hlabels.loading, .refl hidle⟩

/-- In loading mode the state is popped, and its point looked at. -/
theorem fits_pointDispatch (ht : m.slotTable.Follows w entry.length)
    (hlabels : labels.Describes m frames entry)
    (hidle : Frame.WellFormed w.maxLocals.toNat ⟨entry ++ idleSlots, []⟩) :
    ∃ fs, w.Fits labels (some ⟨entry ++ idleSlots, []⟩) (m.pointDispatch frames) fs
      (some ⟨entry ++ poppedSlots, [.int]⟩) := by
  have hloading : w.Allows labels (some ⟨entry ++ idleSlots, []⟩)
      (.label (m.prologueLabels frames).loading) (some ⟨entry ++ idleSlots, []⟩) :=
    .marked hlabels.loading (by simp) (.refl hidle)
  have hpop : w.Steps ⟨entry ++ idleSlots, []⟩ (popState m.slotTable)
      ⟨entry ++ poppedSlots, []⟩ := steps_popState ht (by simp [FrameValue.isWide])
  have hscratch : w.Rule ⟨entry ++ poppedSlots, []⟩ (loadReference m.slotTable.scratch)
      ⟨entry ++ poppedSlots, [stateValue]⟩ := rule_loadScratch ht rfl
  have hget : w.Rule ⟨entry ++ poppedSlots, [stateValue] ++ []⟩
      (.invoke .virtual Capability.getPoint) ⟨entry ++ poppedSlots, [.int] ++ []⟩ :=
    rule_invoke rfl rfl
  have hplain : Plain (popState m.slotTable ++
      [loadReference m.slotTable.scratch, .invoke .virtual Capability.getPoint]) :=
    plain_append.2 ⟨plain_popState _, rfl⟩
  obtain ⟨fs, hfs⟩ := (hpop.append (.cons hscratch (.single hget))).fits labels hplain hidle
  exact ⟨_, .cons hloading hfs⟩

/-- What's done about modes and points that a resumable method doesn't know. -/
theorem fits_faults (hlabels : labels.Describes m frames entry)
    (hidle : Frame.WellFormed w.maxLocals.toNat ⟨entry ++ idleSlots, []⟩)
    (hpopped : Frame.WellFormed w.maxLocals.toNat ⟨entry ++ poppedSlots, []⟩)
    (after : Option Frame) :
    ∃ fs, w.Fits labels (some ⟨entry ++ idleSlots, []⟩) (m.faults frames) fs after := by
  obtain ⟨fs₁, hfs₁⟩ := fits_fail "unrecognized continuation mode" hlabels.badMode hidle
    (some ⟨entry ++ idleSlots, []⟩)
  obtain ⟨fs₂, hfs₂⟩ := fits_fail "unexpected continuation mode (saving isn't allowed on entry)"
    hlabels.saving hidle (some ⟨entry ++ poppedSlots, []⟩)
  obtain ⟨fs₃, hfs₃⟩ := fits_fail "unrecognized continuation point id" hlabels.badPoint hpopped after
  have hfaults := hfs₁.append (hfs₂.append hfs₃)
  rw [← List.append_assoc] at hfaults
  exact ⟨_, hfaults⟩

/-- The prologue leads from the frame at the entry to the one at the start of the method. -/
theorem fits_prologue (h : m.Analyzed owner frames) (hm : m.type.isEligible) (hw : w.Widens m)
    (room : m.maxLocals.toNat + 4 ≤ 65535) {entry : Frame}
    (hlabels : labels.Describes m frames entry.locals) (hentry : m.entryFrame owner = .ok entry) :
    ∃ fs, w.Fits labels (some ⟨entry.locals ++ List.replicate 4 .top, []⟩) (m.prologue frames) fs
      (idleFrame frames 0) := by
  obtain ⟨hwf, -⟩ := wellFormed_of_entryFrame hentry
  have hentry' : Frame.WellFormed m.maxLocals.toNat ⟨entry.locals, []⟩ :=
    hwf.withStack (by simp)
  have hidle : Frame.WellFormed w.maxLocals.toNat ⟨entry.locals ++ idleSlots, []⟩ :=
    hw.wellFormed hentry' rfl narrow_idleSlots isProper_idleSlots
  have hpopped : Frame.WellFormed w.maxLocals.toNat ⟨entry.locals ++ poppedSlots, []⟩ :=
    hw.wellFormed hentry' rfl narrow_poppedSlots isProper_poppedSlots
  obtain ⟨fs₁, hfs₁⟩ := fits_dispatch labels hm hw room hentry
  obtain ⟨fs₂, hfs₂⟩ := fits_pointDispatch (hw.follows room hwf.localsLength) hlabels hidle
  obtain ⟨next, fs₃, hfs₃⟩ := fits_loadBlocks h hw room hlabels hentry'
    (fun block hblock => List.of_mem_zip (a := block.1) (b := block.2) hblock)
    (some ⟨entry.locals ++ idleSlots, []⟩)
  obtain ⟨fs₄, hfs₄⟩ := fits_faults hlabels hidle hpopped (idleFrame frames 0)
  have hpoints : w.Allows labels (some ⟨entry.locals ++ poppedSlots, [.int]⟩)
      (.tableSwitch 0 (m.prologueLabels frames).badPoint (m.prologueLabels frames).points) next := by
    refine .away rfl rfl (Rule.oneOperand rfl rfl rfl) (by simp) fun l hl => ?_
    rcases List.mem_cons.1 hl with rfl | hl
    · exact ⟨_, hlabels.badPoint, .refl hpopped⟩
    · exact ⟨_, hlabels.points l hl, .refl hpopped⟩
  have hstart : w.Allows labels (idleFrame frames 0) (.label (m.prologueLabels frames).start)
      (idleFrame frames 0) := by
    obtain ⟨-, -, f₀, hf₀, -⟩ := h.entry
    have hwf₀ := hw.wellFormed (h.wellFormed _ _ hf₀) rfl narrow_idleSlots isProper_idleSlots
    have := hlabels.start
    rw [idleFrame_eq_some hf₀] at this ⊢
    exact .marked this hwf₀.known (.refl hwf₀)
  rw [prologue_eq]
  exact ⟨_, hfs₁.append (.cons (allows_modes h hlabels hentry hidle) (hfs₂.append
    (.cons hpoints (hfs₃.append (hfs₄.append (.single hstart))))))⟩

end Method

end Resumable
