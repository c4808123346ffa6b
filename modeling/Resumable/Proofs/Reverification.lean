import Resumable.Proofs.Metadata
import Resumable.Proofs.WeaveReach
import Resumable.Proofs.WeaveTyping

/-!
# Resumable methods are verified

A resumable method passes analysis again, with frames below those of its typing.  So its stack map
is in order, and where its original instructions stand it knows at least as much as before.
-/

namespace Resumable

/-- The value that's bound to a key, when no key is bound twice. -/
theorem lookup_eq_some_of_mem {α β : Type} [BEq α] [LawfulBEq α] {bindings : List (α × β)} {k : α} {v : β}
    (hnodup : (bindings.map (·.1)).Nodup) (h : (k, v) ∈ bindings) : bindings.lookup k = some v := by
  induction bindings with
  | nil => cases h
  | cons binding bindings ih =>
      obtain ⟨k', v'⟩ := binding
      rw [List.map_cons, List.nodup_cons] at hnodup
      rcases List.mem_cons.1 h with heq | hmem
      · cases heq
        simp
      · have hne : k ≠ k' := by
          rintro rfl
          exact hnodup.1 (List.mem_map.2 ⟨_, hmem, rfl⟩)
        have hne' : (k == k') = false := by simpa using hne
        rw [List.lookup_cons, hne']
        exact ih hnodup.2 hmem

namespace Method

open Snapshot

variable {m w : Method} {owner : String} {f : Frame} {i : Instruction} {frames : Frames}
  {entry : List FrameValue} {labels : LabelFrames}

/-- The frames at the labels of a resumable method. -/
def labelBindings (m : Method) (frames : Frames) (entry : List FrameValue) :
    List (Label × Option Frame) :=
  let l := m.prologueLabels frames
  (m.points frames).map (fun point =>
    (point.restoreLabel, some ⟨point.frame.locals ++ savedSlots, point.restoredStack⟩)) ++
  ((l.start, idleFrame frames 0) :: (l.loading, some ⟨entry ++ idleSlots, []⟩) ::
    (l.saving, some ⟨entry ++ idleSlots, []⟩) :: (l.badMode, some ⟨entry ++ idleSlots, []⟩) ::
    (l.badPoint, some ⟨entry ++ poppedSlots, []⟩) ::
    l.points.map fun here => (here, some ⟨entry ++ poppedSlots, []⟩)) ++
  ((m.sites frames).filter (·.1.kind = .save)).map (fun site =>
    (site.2, idleFrame frames (site.1.position + 1))) ++
  m.body.instructions.zipIdx.filterMap fun (i, p) =>
    i.placed?.map fun l => (l, idleFrame frames p)

theorem map_fst_labelBindings (m : Method) (frames : Frames) (entry : List FrameValue) :
    (m.labelBindings frames entry).map (·.1) =
      m.freshLabels frames ++ Body.placed m.body.instructions := by
  have hplaced : m.body.instructions.zipIdx.filterMap (fun (i, _) => i.placed?) =
      Body.placed m.body.instructions := by
    conv_rhs => rw [← List.zipIdx_map_fst 0 m.body.instructions]
    rw [Body.placed, List.filterMap_map]
    rfl
  simp only [labelBindings, freshLabels, List.map_append, List.map_map, List.map_cons,
    List.map_filterMap, Option.map_map]
  rw [← hplaced]
  simp [Function.comp_def]

/-- As all labels differ, there are frames for all of them. -/
theorem exists_describes (m : Method) (frames : Frames) (entry : List FrameValue)
    (hnodup : (m.freshLabels frames ++ Body.placed m.body.instructions).Nodup) :
    ∃ labels : LabelFrames, labels.Describes m frames entry := by
  rw [← map_fst_labelBindings m frames entry] at hnodup
  have hfound {l : Label} {f : Option Frame} (h : (l, f) ∈ m.labelBindings frames entry) :
      ((m.labelBindings frames entry).lookup l).getD none = f := by
    rw [lookup_eq_some_of_mem hnodup h]
    rfl
  simp only [labelBindings, List.mem_append, List.mem_cons] at hfound
  refine ⟨fun l => ((m.labelBindings frames entry).lookup l).getD none, ?_, ?_, ?_, ?_, ?_, ?_, ?_, ?_,
    ?_⟩
  · exact hfound (by simp)
  · exact hfound (by simp)
  · exact hfound (by simp)
  · exact hfound (by simp)
  · exact hfound (by simp)
  · intro here hhere
    refine hfound (.inl (.inl (.inr ?_)))
    simp [hhere]
  · intro point hpoint
    exact hfound (.inl (.inl (.inl (List.mem_map_of_mem hpoint))))
  · intro site hsite hkind
    refine hfound (.inl (.inr (List.mem_map.2 ⟨site, ?_, rfl⟩)))
    simp [hsite, hkind]
  · intro l p hp
    refine hfound (.inr (List.mem_filterMap.2 ⟨(.label l, p), ?_, rfl⟩))
    exact List.mem_zipIdx_iff_getElem?.2 hp

/-- The blocks of consecutive instructions lead from the first one's frame to the last one's. -/
theorem fits_blocks (h : m.Analyzed owner frames) (hw : w.Widens m)
    (room : m.maxLocals.toNat + 4 ≤ 65535) (hlabels : labels.Describes m frames entry) (n : Nat)
    (is : List Instruction) (his : ∀ k i, is[k]? = some i → m.body.get? (n + k) = some i) :
    ∃ fs, w.Fits labels (idleFrame frames n)
      ((is.zipIdx n).flatMap fun ip => m.block frames ip.2 ip.1) fs
        (idleFrame frames (n + is.length)) := by
  induction is generalizing n with
  | nil => exact ⟨[], .nil _⟩
  | cons i is ih =>
      obtain ⟨fs₁, hfs₁, -⟩ := fits_block h hw room hlabels (his 0 i rfl)
      obtain ⟨fs₂, hfs₂⟩ := ih (n + 1) fun k j hk => by
        have := his (k + 1) j (by simpa using hk)
        rwa [Nat.add_assoc, Nat.add_comm 1 k]
      rw [List.zipIdx_cons, List.flatMap_cons, List.length_cons, ← Nat.add_assoc,
        Nat.add_right_comm]
      exact ⟨_, hfs₁.append hfs₂⟩

end Method

theorem Frames.at?_append_left {fs : Frames} {k : Nat} (hk : k < fs.length) (gs : Frames) :
    Frames.at? (fs ++ gs) k = fs.at? k := by
  simp [Frames.at?, List.getElem?_append_left hk]

theorem Frames.at?_append_right (fs gs : Frames) (k : Nat) :
    Frames.at? (fs ++ gs) (fs.length + k) = gs.at? k := by
  simp [Frames.at?, List.getElem?_append_right]

namespace Method

open Snapshot

variable {m w : Method} {owner : String} {f : Frame} {i : Instruction} {frames : Frames}

/-- A resumable method has a typing with a given instruction's own frame where it stands now. -/
theorem exists_typing (h : m.Analyzed owner frames) (hm : m.type.isEligible) (hw : w.Widens m)
    (htype : w.type = m.type) (haccess : w.access = m.access)
    (hbody : w.body.instructions = (m.weave frames).body.instructions)
    (room : m.maxLocals.toNat + 4 ≤ 65535)
    (hnodup : (m.freshLabels frames ++ Body.placed m.body.instructions).Nodup) {p : Nat}
    (hi : m.body.get? p = some i) :
    ∃ typing : Frames, w.Typing owner typing.at? ∧ (m.Survives frames p →
      ∃ slots, typing.at? (m.newPosition frames p) =
        (frames.at? p).map fun f => f.extend slots) := by
  obtain ⟨entry, hentry, f₀, hf₀, hbelow⟩ := h.entry
  have hp := Body.lt_of_get? hi
  have hp' : p < m.body.instructions.length := hp
  have hne : m.body.length ≠ 0 := by omega
  obtain ⟨labels, hlabels⟩ := exists_describes m frames entry.locals hnodup
  obtain ⟨fs₁, hfs₁⟩ := fits_prologue h hm hw room hlabels hentry
  obtain ⟨fs₂, hfs₂⟩ := fits_blocks h hw room hlabels 0 (m.body.instructions.take p)
    fun k j hk => by
      rw [List.getElem?_take] at hk
      split at hk
      · rw [Nat.zero_add]
        exact hk
      · cases hk
  obtain ⟨fs₃, hfs₃, hsurvives⟩ := fits_block h hw room hlabels hi
  obtain ⟨fs₄, hfs₄⟩ := fits_blocks h hw room hlabels (p + 1) (m.body.instructions.drop (p + 1))
    fun k j hk => by rwa [List.getElem?_drop] at hk
  have hstart : 0 + (m.body.instructions.take p).length = p := by simp; omega
  have hend : idleFrame frames (p + 1 + (m.body.instructions.drop (p + 1)).length) = none := by
    have hlength : p + 1 + (m.body.instructions.drop (p + 1)).length = frames.length := by
      rw [List.length_drop, h.length, Body.length]
      omega
    rw [idleFrame, Frames.at?, hlength]
    simp
  rw [hstart] at hfs₂
  rw [hend] at hfs₄
  have hall := hfs₁.append (hfs₂.append (hfs₃.append hfs₄))
  have hcode : w.body.instructions = m.prologue frames ++
      ((m.body.instructions.take p).zipIdx.flatMap (fun ip => m.block frames ip.2 ip.1) ++
        (m.block frames p i ++ ((m.body.instructions.drop (p + 1)).zipIdx (p + 1)).flatMap
          fun ip => m.block frames ip.2 ip.1)) := by
    rw [hbody, instructions_weave hne, flatMap_zipIdx_eq _ hi]
    simp
  rw [← hcode] at hall
  have hne' : w.body.length ≠ 0 := by
    have : 0 < (m.prologue frames).length := by
      rw [prologue_eq, List.length_append, List.length_cons]
      omega
    rw [Body.length, hcode, List.length_append]
    omega
  have hfresh : Frame.WellFormed w.maxLocals.toNat ⟨entry.locals ++ List.replicate 4 .top, []⟩ :=
    hw.wellFormed ((wellFormed_of_entryFrame hentry).1.withStack (by simp)) rfl
      (by simp [FrameValue.isWide]) (by simp [FrameValue.IsProper])
  refine ⟨_, hall.typing hne' (entryFrame_extend hw htype (congrArg AccessFlags.isStatic haccess)
    hentry) rfl (.refl hfresh), ?_⟩
  intro hs
  obtain ⟨slots, hslots⟩ := hsurvives hs
  obtain ⟨after, hafter⟩ := block_eq_of_survives hs i
  refine ⟨slots, hslots ▸ ?_⟩
  have hposition : m.newPosition frames p =
      fs₁.length + (fs₂.length + (m.before frames p).length) := by
    rw [newPosition, blockStart, hfs₁.length_eq, hfs₂.length_eq]
    exact Nat.add_assoc _ _ _
  rw [hposition, Frames.at?_append_right, Frames.at?_append_right, Frames.at?_append_left]
  rw [hfs₃.length_eq, hafter]
  simp

/-- What's known of the resumable form `m'` of a method `m`, given the frames of both.

Each instruction of the method stands at its new position, in the same order as before, unless the
method suspends itself there.  Where execution got to before it still does, and what's known of the
operand stack and of the method's own locals can be used wherever it could before; where execution
didn't get to it still doesn't. -/
structure Reverified (owner : String) (m : Method) (frames : Frames) (m' : Method)
    (frames' : Frames) : Prop where
  analyzed : m'.analyze owner = .ok frames'
  checked : m'.checkStackMap frames' = .ok ()
  maxLocals : m'.maxLocals.toNat = m.maxLocals.toNat + SlotTable.extraSlots
  ordered : ∀ p q, p < q → q < m.body.length → m.newPosition frames p < m.newPosition frames q
  stays : ∀ p i, m.body.get? p = some i → (i.isSuspend → frames.at? p = none) →
    m'.body.get? (m.newPosition frames p) = some i
  reachable : ∀ p i f, m.body.get? p = some i → (i.isSuspend → frames.at? p = none) →
    frames.at? p = some f → ∃ f', frames'.at? (m.newPosition frames p) = some f' ∧
      f'.stack.length = f.stack.length ∧
      List.Forall₂ (fun v v' => v.isAssignableFrom v') f.stack f'.stack ∧
      List.Forall₂ (fun v v' => v.isAssignableFrom v') f.locals
        (f'.locals.take m.maxLocals.toNat)
  unreachable : ∀ p i, m.body.get? p = some i → frames.at? p = none →
    frames'.at? (m.newPosition frames p) = none

theorem survives_of_isSuspend {p : Nat} (hi : m.body.get? p = some i)
    (h : i.isSuspend → frames.at? p = none) : m.Survives frames p := by
  intro point proceed hsite hkind
  obtain ⟨hmem, rfl⟩ := site?_eq_some.1 hsite
  obtain ⟨hat, -, j, hj, hsuspend⟩ := of_mem_points (mem_points_of_mem_sites hmem)
  rw [hkind] at hsuspend
  obtain rfl : i = j := Option.some.inj (hi.symm.trans hj)
  rw [h hsuspend] at hat
  cases hat

theorem length_before_lt_length_block (p : Nat) (i : Instruction) :
    (m.before frames p).length < (m.block frames p i).length := by
  simp only [before, block]
  cases m.site? frames p with
  | none => simp
  | some site =>
      cases hk : site.1.kind <;>
        simp [ContinuationPoint.before, ContinuationPoint.block, hk, ContinuationPoint.suspendBlock]

theorem newPosition_lt_newPosition {p q : Nat} (hpq : p < q) (hq : q < m.body.length) :
    m.newPosition frames p < m.newPosition frames q := by
  have hlt (p : Nat) (hp : p < m.body.length) :
      m.newPosition frames p < m.blockStart frames (p + 1) := by
    obtain ⟨i, hi⟩ := Body.get?_of_lt hp
    rw [blockStart_succ hi, newPosition]
    exact Nat.add_lt_add_left (length_before_lt_length_block p i) _
  have hle (k : Nat) (hk : p + 1 + k ≤ m.body.length) :
      m.blockStart frames (p + 1) ≤ m.blockStart frames (p + 1 + k) := by
    induction k with
    | zero => exact Nat.le_refl _
    | succ k ih =>
        obtain ⟨i, hi⟩ := Body.get?_of_lt (b := m.body) (p := p + 1 + k) (by omega)
        rw [← Nat.add_assoc, blockStart_succ hi]
        exact Nat.le_trans (ih (by omega)) (Nat.le_add_right _ _)
  have hstart := hle (q - (p + 1)) (by omega)
  have hq' : p + 1 + (q - (p + 1)) = q := by omega
  rw [hq'] at hstart
  have := hlt p (by omega)
  simp only [newPosition] at this ⊢
  omega

theorem widens_weave (frames : Frames) (room : m.maxLocals.toNat + SlotTable.extraSlots ≤ maxSlots) :
    (m.weave frames).Widens m where
  returns := rfl
  maxLocals := by
    have : (m.weave frames).maxLocals =
        UInt16.ofNat (m.maxLocals.toNat + SlotTable.extraSlots) := rfl
    rw [this, UInt16.toNat_ofNat']
    exact Nat.mod_eq_of_lt (Nat.lt_of_le_of_lt room (by decide))

/-- The resumable form of a method that passes analysis is verified as well, unless its operand
stack would be too large. -/
theorem transform_reverified (eligible : m.type.isEligible)
    (supported : ∀ i ∈ m.body.instructions, i.isUnsupported = false)
    (analyzed : m.analyze owner = .ok frames)
    (room : m.maxLocals.toNat + SlotTable.extraSlots ≤ maxSlots)
    (counter : ∀ l, .label l ∈ m.body.instructions → l.number < m.body.nextLabel)
    (enough : m.body.nextLabel.toNat + m.freshLabelCount frames ≤ 4294967295) :
    (∃ needed, m.transform owner = .error (.limitExceeded m.signature .stack needed)) ∨
      ∃ m' frames', m.transform owner = .ok m' ∧ m.Reverified owner frames m' frames' := by
  have h := analyzed_of_analyze analyzed
  have hne : m.body.length ≠ 0 := by
    obtain ⟨-, -, f, hf, -⟩ := h.entry
    have := Frames.lt_of_at? hf
    have := h.length
    omega
  have hw := widens_weave frames room
  have hcounter : ∀ l ∈ Body.placed m.body.instructions, l.number < m.body.nextLabel := by
    intro l hl
    obtain ⟨i, hi, hplaced⟩ := List.mem_filterMap.1 hl
    exact counter l (Body.placed?_eq_some.1 hplaced ▸ hi)
  have hnodup := nodup_placed_weave h hcounter enough
  have hplaced := (placed_weave frames hne).nodup_iff.2 hnodup
  have hlabels := labels_weave h hnodup
  have hfirst : m.transform owner = (m.weave frames).recompute owner := by
    have hsupported : m.checkSupported = .ok () := by
      simp only [checkSupported]
      rw [List.find?_eq_none.2 fun ip hip => by simp [supported ip.1 (List.fst_mem_of_mem_zipIdx hip)]]
    have hroom : ¬ maxSlots < m.maxLocals.toNat + SlotTable.extraSlots := Nat.not_lt.2 room
    simp only [transform, hsupported, analyzed, hroom, if_false, Except.ok_bind]
  have htyping {p : Nat} {i : Instruction} (hi : m.body.get? p = some i) :=
    exists_typing (w := m.weave frames) h eligible hw rfl rfl rfl room hnodup hi
  obtain ⟨i₀, hi₀⟩ := Body.get?_of_lt (Nat.pos_of_ne_zero hne)
  obtain ⟨typing₀, htyping₀, -⟩ := htyping hi₀
  rw [hfirst]
  rcases recompute_cases htyping₀ hlabels with hlimit |
    ⟨maxStack, stackMap, frames', hok, hanalyzed, hchecked, hunder⟩
  · exact .inl hlimit
  · refine .inr ⟨_, frames', hok, hanalyzed, hchecked, hw.maxLocals,
      fun p q hpq hq => newPosition_lt_newPosition hpq hq,
      fun p i hi hs => get?_newPosition hi (survives_of_isSuspend hi hs), ?_, ?_⟩
    · intro p i f hi hs hf
      have hsurvives := survives_of_isSuspend hi hs
      obtain ⟨typing, htyping, hslots⟩ := htyping hi
      obtain ⟨slots, hslots⟩ := hslots hsurvives
      rw [hf, Option.map_some] at hslots
      have hreaches := reaches_newPosition hi hsurvives
        (reaches_blockStart hne hplaced (h.reached p f hf))
      obtain ⟨f', hf'⟩ := ((analyzed_of_analyze hanalyzed).reaches_iff _).2 hreaches
      obtain ⟨g, hg, hbelow⟩ := hunder _ htyping _ f' hf'
      obtain rfl : f.extend slots = g := Option.some.inj (hslots.symm.trans hg)
      have hlength := (h.wellFormed p f hf).localsLength
      refine ⟨f', hf', hbelow.stack.length_eq, hbelow.stack.flip, ?_⟩
      have hlocals := List.forall₂_take m.maxLocals.toNat hbelow.locals
      simp only [Frame.extend, ← hlength, List.take_left] at hlocals
      exact hlength ▸ hlocals.flip
    · intro p i hi hf
      have hsurvives := survives_of_isSuspend hi fun _ => hf
      obtain ⟨typing, htyping, hslots⟩ := htyping hi
      obtain ⟨slots, hslots⟩ := hslots hsurvives
      rw [hf] at hslots
      cases hf' : frames'.at? (m.newPosition frames p) with
      | none => rfl
      | some f' =>
          obtain ⟨g, hg, -⟩ := hunder _ htyping _ f' hf'
          rw [hslots] at hg
          cases hg

/-- Suspends itself over and over. -/
def sleeper : Method where
  name := "sleep"
  type := ⟨[Capability.type], none⟩
  access := .static
  maxStack := 1
  maxLocals := 1
  body := .ofList [.label ⟨0⟩, .load .reference 0, .invoke .virtual Capability.suspend, .goto ⟨0⟩]
  stackMap := []

/-- A frame of the sleeper, which just holds the capability. -/
def sleeperFrame (stack : List FrameValue) : Option Frame := some ⟨[capabilityValue], stack⟩

def sleeperFrames : Frames :=
  [sleeperFrame [], sleeperFrame [], sleeperFrame [capabilityValue], sleeperFrame []]

theorem analyze_sleeper : sleeper.analyze "Demo" = .ok sleeperFrames := by
  have hlabels : sleeper.body.labelPositions = .ok [(⟨0⟩, 0)] := rfl
  have hentry : sleeper.entryFrame "Demo" = .ok ⟨[capabilityValue], []⟩ := rfl
  have hlength : ¬ sleeper.body.length = 0 := by decide
  simp only [analyze, hlabels, hentry, hlength, if_false]
  rw [Progress.run_of_follow rfl (t := ⟨[sleeperFrame [], sleeperFrame [], none, none], [1]⟩) rfl,
    Progress.run_of_follow rfl
      (t := ⟨[sleeperFrame [], sleeperFrame [], sleeperFrame [capabilityValue], none], [2]⟩) rfl,
    Progress.run_of_follow rfl (t := ⟨sleeperFrames, [3]⟩) rfl,
    Progress.run_of_follow rfl (t := ⟨sleeperFrames, []⟩) rfl]
  rw [Progress.run]

/-- The sleeper's resumable form is verified. -/
theorem transform_reverified_sleeper :
    (∃ needed, sleeper.transform "Demo" = .error (.limitExceeded sleeper.signature .stack needed)) ∨
      ∃ m' frames', sleeper.transform "Demo" = .ok m' ∧
        sleeper.Reverified "Demo" sleeperFrames m' frames' := by
  have counter : ∀ l, .label l ∈ sleeper.body.instructions →
      l.number < sleeper.body.nextLabel := by
    intro l hl
    obtain rfl : l = ⟨0⟩ := by simpa [sleeper, Body.ofList] using hl
    decide
  have enough : sleeper.body.nextLabel.toNat + sleeper.freshLabelCount sleeperFrames ≤
      4294967295 := by decide
  exact transform_reverified (by decide) (by decide) analyze_sleeper (by decide) counter enough

end Method

end Resumable
