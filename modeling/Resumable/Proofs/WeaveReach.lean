import Resumable.Proofs.WeaveLabels

/-!
# Where execution gets to in resumable methods

Execution gets to the block of every instruction that it got to before.  It gets behind an
instruction with which the method suspends itself by way of the prologue, which restores the frame
there.
-/

namespace Resumable

namespace Body.Reaches

variable {b : Body} {p q : Nat} {i : Instruction} {l : Label} {code rest : List Instruction}

/-- Execution gets through code that falls through. -/
theorem through (h : b.Reaches p) (hcode : b.HasAt p (code ++ rest))
    (hfalls : ∀ i ∈ code, i.fallsThrough) : b.Reaches (p + code.length) := by
  induction code generalizing p with
  | nil => exact h
  | cons i code ih =>
      rw [List.forall_mem_cons] at hfalls
      have hnext := ih (.step h (.next hcode.head hfalls.1)) hcode.tail hfalls.2
      rwa [List.length_cons, Nat.add_comm code.length, ← Nat.add_assoc]

/-- Execution gets to a label that's jumped to. -/
theorem jump (h : b.Reaches p) (hnodup : (placed b.instructions).Nodup)
    (hp : b.HasAt p (i :: code)) (hl : l ∈ i.targets) (hq : b.HasAt q (.label l :: rest)) :
    b.Reaches q :=
  .step h (.jump hp.head hl (position?_of_get? hnodup hq.head))

end Body.Reaches

theorem Plain.fallsThrough {code : List Instruction} (h : Plain code) :
    ∀ i ∈ code, i.fallsThrough :=
  fun i hi => (Instruction.isPlain_iff.1 (plain_iff.1 h i hi)).2.2

namespace Method

open Snapshot

variable {m : Method} {owner : String} {frames : Frames} {p : Nat} {i : Instruction}

theorem fallsThrough_dispatch (m : Method) : ∀ i ∈ m.dispatch, i.fallsThrough :=
  (plain_append.2 ⟨rfl, plain_getMode m.slotTable⟩ : Plain m.dispatch).fallsThrough

theorem fallsThrough_pointDispatch (m : Method) (frames : Frames) :
    ∀ i ∈ m.pointDispatch frames, i.fallsThrough := by
  have hplain : Plain (popState m.slotTable ++
      [loadReference m.slotTable.scratch, .invoke .virtual Capability.getPoint]) :=
    plain_append.2 ⟨plain_popState _, rfl⟩
  exact List.forall_mem_cons.2 ⟨rfl, hplain.fallsThrough⟩

variable (hne : m.body.length ≠ 0)
  (hnodup : (Body.placed (m.weave frames).body.instructions).Nodup)

include hne hnodup

/-- Execution gets to the method's own code. -/
theorem reaches_start : (m.weave frames).body.Reaches (m.blockStart frames 0) := by
  have hat := hasAt_prologue frames hne
  rw [prologue_eq] at hat
  have hswitch := Body.Reaches.entry.through hat (fallsThrough_dispatch m)
  have hstart := hat.right.tail.right.tail.right.right
  have hlabel := hswitch.jump hnodup hat.right (by simp [Instruction.targets]) hstart
  have hnext := Body.Reaches.step hlabel (.next hstart.head rfl)
  have hposition : m.blockStart frames 0 = (m.prologue frames).length := blockStart_zero m frames
  rw [hposition, prologue_eq]
  simpa [Nat.add_assoc, Nat.add_comm, Nat.add_left_comm] using hnext

/-- Execution gets to the label at which the frame of a point has been restored. -/
theorem reaches_restoreLabel {point : ContinuationPoint} (hpoint : point ∈ m.points frames) {q : Nat}
    {rest : List Instruction}
    (hq : (m.weave frames).body.HasAt q (.label point.restoreLabel :: rest)) :
    (m.weave frames).body.Reaches q := by
  have hat := hasAt_prologue frames hne
  rw [prologue_eq] at hat
  have hswitch := Body.Reaches.entry.through hat (fallsThrough_dispatch m)
  have hloading := hswitch.jump hnodup hat.right (by simp [Instruction.targets]) hat.right.tail
  have hswitch' := hloading.through hat.right.tail (fallsThrough_pointDispatch m frames)
  obtain ⟨here, hhere⟩ : ∃ here,
      (point, here) ∈ (m.points frames).zip (m.prologueLabels frames).points := by
    obtain ⟨k, hk, rfl⟩ := List.mem_iff_getElem.1 hpoint
    have hk' : k < (m.prologueLabels frames).points.length := by rwa [length_prologueLabels]
    have hlt : k < ((m.points frames).zip (m.prologueLabels frames).points).length := by
      rw [List.length_zip]
      omega
    refine ⟨(m.prologueLabels frames).points[k], List.mem_iff_getElem.2 ⟨k, hlt, ?_⟩⟩
    simp
  obtain ⟨before, after, hzip⟩ := List.append_of_mem hhere
  have hblocks := hat.right.tail.right.tail
  rw [loadBlocks, hzip, List.flatMap_append, List.flatMap_cons, List.append_assoc,
    List.append_assoc] at hblocks
  have hblock := hblocks.right
  simp only [ContinuationPoint.loadBlock, List.cons_append, List.append_assoc] at hblock
  have hstart := hswitch'.jump hnodup hat.right.tail.right
    (List.mem_cons_of_mem _ (List.of_mem_zip hhere).2) hblock
  have hnext := Body.Reaches.step hstart (.next hblock.head rfl)
  have hstack := hnext.through hblock.tail (plain_loadStack _ _).fallsThrough
  have hlocals := hstack.through hblock.tail.right (plain_loadLocals _ _).fallsThrough
  exact hlocals.jump hnodup hblock.tail.right.right (by simp [Instruction.targets]) hq

omit hne hnodup in
theorem fallsThrough_saveBlock (t : SlotTable) (point : ContinuationPoint) :
    ∀ i ∈ point.saveBlock t, i.fallsThrough := by
  intro i hi
  simp only [ContinuationPoint.saveBlock, List.mem_append, List.mem_singleton] at hi
  rcases hi with ((hi | hi) | hi) | rfl
  · exact (plain_saveStack _ _).fallsThrough i hi
  · exact (plain_loadStack _ _).fallsThrough i hi
  · exact (plain_saveLocals _ _).fallsThrough i hi
  · rfl

omit hne hnodup in
/-- What comes before an instruction that stays falls through to it. -/
theorem fallsThrough_before (m : Method) (frames : Frames) (p : Nat) :
    ∀ i ∈ m.before frames p, i.fallsThrough := by
  simp only [before]
  split
  · simp
  · rename_i point proceed hsite
    simp only [ContinuationPoint.before]
    split
    · simp
    · exact fallsThrough_saveBlock _ _

omit hne hnodup in
/-- Execution gets to an instruction that stays if it gets to its block. -/
theorem reaches_newPosition (hi : m.body.get? p = some i) (hsurvives : m.Survives frames p)
    (h : (m.weave frames).body.Reaches (m.blockStart frames p)) :
    (m.weave frames).body.Reaches (m.newPosition frames p) := by
  obtain ⟨after, hafter⟩ := block_eq_of_survives hsurvives i
  have hat := hasAt_block frames hi
  rw [hafter] at hat
  exact h.through hat (fallsThrough_before m frames p)

/-- Execution gets from a block to the next one if the instruction falls through. -/
theorem reaches_blockStart_succ (hi : m.body.get? p = some i) (hfalls : i.fallsThrough)
    (h : (m.weave frames).body.Reaches (m.blockStart frames p)) :
    (m.weave frames).body.Reaches (m.blockStart frames (p + 1)) := by
  have hat := hasAt_block frames hi
  rw [blockStart_succ hi]
  simp only [block] at hat ⊢
  cases hsite : m.site? frames p with
  | none =>
      simp only [hsite] at hat
      exact .step h (.next hat.head hfalls)
  | some site =>
      obtain ⟨hmem, rfl⟩ := site?_eq_some.1 hsite
      simp only [hsite] at hat
      cases hk : site.1.kind with
      | suspend =>
          simp only [ContinuationPoint.block, hk, ContinuationPoint.suspendBlock] at hat ⊢
          have hlabel := reaches_restoreLabel hne hnodup (mem_points_of_mem_sites hmem) hat.right
          have hnext := Body.Reaches.step hlabel (.next hat.right.head rfl)
          simpa [Nat.add_assoc] using hnext
      | save =>
          simp only [ContinuationPoint.block, hk] at hat ⊢
          have hsave := h.through hat (fallsThrough_saveBlock _ _)
          have hcall := Body.Reaches.step hsave (.next hat.right.head hfalls)
          have hafter := hat.right.tail
          simp only [ContinuationPoint.afterSave, List.append_assoc, List.cons_append,
            List.nil_append] at hafter
          have hmode := hcall.through hafter (plain_getMode _).fallsThrough
          have hconst := Body.Reaches.step hmode (.next hafter.right.head rfl)
          have hlabel := hconst.jump hnodup hafter.right.tail (by simp [Instruction.targets])
            hafter.right.tail.tail.right.right
          have hnext := Body.Reaches.step hlabel
            (.next hafter.right.tail.tail.right.right.head rfl)
          simpa [ContinuationPoint.afterSave, Nat.add_assoc, Nat.add_comm, Nat.add_left_comm]
            using hnext

omit hne hnodup in
/-- A place that's marked is its own block. -/
theorem block_label {l : Label} (hi : m.body.get? p = some (.label l)) :
    m.block frames p (.label l) = [.label l] := by
  simp only [block]
  cases hsite : m.site? frames p with
  | none => rfl
  | some site => cases (placed?_eq_none_of_site hsite hi).1

/-- Execution gets to the block of every instruction that it got to before. -/
theorem reaches_blockStart (h : m.body.Reaches p) :
    (m.weave frames).body.Reaches (m.blockStart frames p) := by
  induction h with
  | entry => exact reaches_start hne hnodup
  | @step p q _ hleads ih =>
      cases hleads with
      | next hi hfalls => exact reaches_blockStart_succ hne hnodup hi hfalls ih
      | jump hi htarget hplaced =>
          have hlabel := Body.get?_of_position? hplaced
          have hat := hasAt_block frames hi
          have hat' := hasAt_block frames hlabel
          rw [block_label hlabel] at hat'
          cases hsite : m.site? frames p with
          | none =>
              simp only [block, hsite] at hat
              exact ih.jump hnodup hat htarget hat'
          | some site =>
              rw [(placed?_eq_none_of_site hsite hi).2] at htarget
              cases htarget

end Method

end Resumable
