import Resumable.Proofs.AddedCode
import Resumable.Proofs.CallStack
import Resumable.Proofs.Forms

/-!
# Where a resumable method is in the original one

A resumable method has an instruction of the original method at the position that it got, and code
of its own everywhere else.
-/

namespace Resumable

namespace Method

variable {d : Method} {frames : Frames} {p q k : Nat} {i : Instruction}

theorem blockStart_le_succ (d : Method) (frames : Frames) (p : Nat) :
    d.blockStart frames p ≤ d.blockStart frames (p + 1) := by
  cases hi : d.body.get? p with
  | some i =>
      rw [blockStart_succ hi]
      exact Nat.le_add_right _ _
  | none =>
      have hlength : d.body.instructions.length ≤ p := List.getElem?_eq_none_iff.1 hi
      simp only [blockStart, List.take_of_length_le hlength,
        List.take_of_length_le (Nat.le_succ_of_le hlength), Nat.le_refl]

theorem blockStart_mono (d : Method) (frames : Frames) (h : p ≤ q) :
    d.blockStart frames p ≤ d.blockStart frames q := by
  induction h with
  | refl => exact Nat.le_refl _
  | step _ ih => exact Nat.le_trans ih (blockStart_le_succ d frames _)

/-- An instruction that stays is in its block. -/
theorem newPosition_lt (hi : d.body.get? q = some i) (h : d.Survives frames q) :
    d.newPosition frames q < d.blockStart frames (q + 1) := by
  obtain ⟨after, hblock⟩ := block_eq_of_survives h i
  rw [blockStart_succ hi, hblock, newPosition]
  simp only [List.length_append, List.length_cons]
  omega

/-- No other instruction that stays is in a block. -/
theorem eq_of_newPosition (hk : d.blockStart frames p ≤ k) (hk' : k < d.blockStart frames (p + 1))
    (hi : d.body.get? q = some i) (h : d.Survives frames q) (heq : k = d.newPosition frames q) :
    q = p := by
  have hlt := newPosition_lt hi h
  have hle : d.blockStart frames q ≤ k := heq ▸ Nat.le_add_right _ _
  rcases Nat.lt_trichotomy q p with hqp | hqp | hqp
  · have := blockStart_mono d frames (Nat.succ_le_of_lt hqp)
    simp only [Nat.succ_eq_add_one] at this
    omega
  · exact hqp
  · have := blockStart_mono d frames (Nat.succ_le_of_lt hqp)
    simp only [Nat.succ_eq_add_one] at this
    omega

/-- The code before the first block only looks, but for one invocation that takes a state. -/
theorem Woven.looks_prologue {owner : String} {d' : Method} (h : d.Woven owner frames d')
    (hk : k < (d.prologue frames).length) {kind : InvokeKind} {method : MethodRef}
    (hi : d'.body.get? k = some (.invoke kind method)) :
    k = d.dispatch.length + 3 ∨ method.Looks := by
  have hat := h.hasAt_prologue
  have hlength := congrArg List.length (prologue_eq d frames)
  have hpoint : (d.pointDispatch frames).length = 12 := rfl
  simp only [List.length_append, List.length_cons, List.length_nil, hpoint] at hlength
  have hmode : CallsOnly MethodRef.Looks [.tableSwitch 0 (d.prologueLabels frames).badMode
      [(d.prologueLabels frames).start, (d.prologueLabels frames).saving,
        (d.prologueLabels frames).loading], .label (d.prologueLabels frames).loading,
      Snapshot.loadReference d.slotTable.capability] := by
    simp [Instruction.invoked?, Snapshot.loadReference]
  have hstart : CallsOnly MethodRef.Looks (d.dispatch ++ _) := CallsOnly.append_iff.2
    ⟨d.callsOnly_dispatch, hmode⟩
  have hrest : CallsOnly MethodRef.Looks ((d.pointDispatch frames).drop 3 ++
      (.tableSwitch 0 (d.prologueLabels frames).badPoint (d.prologueLabels frames).points ::
      (d.loadBlocks frames ++ (d.faults frames ++ [.label (d.prologueLabels frames).start])))) := by
    have hpoint : MethodRef.Looks Capability.getPoint := .inl (by simp)
    have hstack : MethodRef.Looks Capability.getStack := .inl (by simp)
    have hlocals : MethodRef.Looks Capability.getLocals := .inl (by simp)
    simp [pointDispatch, Snapshot.popState, faults, Snapshot.fail, Snapshot.loadReference,
      Snapshot.storeReference, Instruction.invoked?, callsOnly_loadBlocks, hpoint, hstack, hlocals]
  have hparts : d.prologue frames = (d.dispatch ++ [.tableSwitch 0 (d.prologueLabels frames).badMode
      [(d.prologueLabels frames).start, (d.prologueLabels frames).saving,
        (d.prologueLabels frames).loading], .label (d.prologueLabels frames).loading,
      Snapshot.loadReference d.slotTable.capability]) ++
      .invoke .virtual Capability.popState :: ((d.pointDispatch frames).drop 3 ++
      (.tableSwitch 0 (d.prologueLabels frames).badPoint (d.prologueLabels frames).points ::
      (d.loadBlocks frames ++ (d.faults frames ++ [.label (d.prologueLabels frames).start])))) := by
    rw [prologue_eq]
    simp [pointDispatch, Snapshot.popState]
  rw [hparts] at hat hk
  rw [List.length_append, List.length_cons] at hk
  have hbefore : (d.dispatch ++ [Instruction.tableSwitch 0 (d.prologueLabels frames).badMode
      [(d.prologueLabels frames).start, (d.prologueLabels frames).saving,
        (d.prologueLabels frames).loading], .label (d.prologueLabels frames).loading,
      Snapshot.loadReference d.slotTable.capability]).length = d.dispatch.length + 3 := by simp
  rw [hbefore] at hk
  rcases Nat.lt_trichotomy k (d.dispatch.length + 3) with hlt | heq | hgt
  · exact .inr (hstart.get? hat.left (Nat.zero_le _) (by omega) hi)
  · exact .inl heq
  · exact .inr (hrest.get? hat.right.tail (by omega) (by omega) hi)

end Method

namespace Activation

variable {m₀ : Machine} {a b : Activation} {d : Method} {frames : Frames}

/-- True if the activation is of the resumable form of a method of the machine. -/
structure MadeFrom (m₀ : Machine) (a : Activation) (d : Method) (frames : Frames) : Prop where
  found : m₀.method? ⟨a.owner, a.method.name, a.method.type⟩ = some d
  resumes : d.Resumes a.owner frames a.method

/-- True if the next instruction is one of the original code.  A method that isn't resumable has no
other code. -/
def Original (m₀ : Machine) (a : Activation) : Prop :=
  a.method.access.isInstrumented = false ∨ ∃ d frames p i, a.MadeFrom m₀ d frames ∧
    d.body.get? p = some i ∧ d.Survives frames p ∧ a.position = d.newPosition frames p

/-- True if the activation is at a point, where the original method suspends itself or calls a
method that may suspend. -/
structure At (m₀ : Machine) (a : Activation) (d : Method) (frames : Frames)
    (point : ContinuationPoint) : Prop where
  made : a.MadeFrom m₀ d frames
  mem : point ∈ d.points frames
  position : a.position = d.newPosition frames point.position

/-- A resumable method is made from one method only. -/
theorem MadeFrom.unique {d' : Method} {frames' : Frames} (h : a.MadeFrom m₀ d frames)
    (k : a.MadeFrom m₀ d' frames') : d' = d ∧ frames' = frames := by
  obtain rfl : d = d' := Option.some.inj (h.found.symm.trans k.found)
  exact ⟨rfl, Except.ok.inj (k.resumes.analyze.symm.trans h.resumes.analyze)⟩

/-- True if the next instruction has been added to the method.  It calls a method of the library, if
it calls one. -/
structure AddedTo (d : Method) (frames : Frames) (a : Activation) : Prop where
  resumes : d.Resumes a.owner frames a.method
  apart : ∀ p i, d.body.get? p = some i → d.Survives frames p →
    a.position ≠ d.newPosition frames p
  library : ∀ kind method, a.method.body.get? a.position = some (.invoke kind method) →
    method.InLibrary

/-- True if the next instruction has been added to the method of which the activation's one is the
resumable form. -/
def Added (a : Activation) : Prop := ∃ d frames, a.AddedTo d frames

/-- True if the next instruction has been added, and takes no state from a capability. -/
structure Calm (a : Activation) : Prop where
  added : a.Added
  retains : ∀ kind, a.method.body.get? a.position ≠ some (.invoke kind Capability.popState)

/-- Code before the first block has been added. -/
theorem addedTo_prologue (h : d.Resumes a.owner frames a.method)
    (hp : a.position < d.blockStart frames 0) : a.AddedTo d frames := by
  refine ⟨h, fun p i _ _ hposition => ?_, fun kind method hi => ?_⟩
  · have := Method.blockStart_mono d frames (Nat.zero_le p)
    have : d.blockStart frames p ≤ a.position := hposition ▸ Nat.le_add_right _ _
    omega
  · rw [Method.blockStart_zero] at hp
    exact (d.callsOnly_prologue frames).get? h.hasAt_prologue (Nat.zero_le _) (by omega) hi

/-- Code before the first block takes no state, but for one invocation. -/
theorem calm_prologue (h : d.Resumes a.owner frames a.method)
    (hp : a.position < (d.prologue frames).length) (hne : a.position ≠ d.dispatch.length + 3) :
    a.Calm := by
  refine ⟨⟨d, frames, addedTo_prologue h (by rwa [Method.blockStart_zero])⟩, fun kind hi => ?_⟩
  exact ((h.looks_prologue hp hi).resolve_left hne).retains.2 rfl

/-- Code of a block has been added but for the instruction that the block is of, if that stays. -/
theorem calm_block (h : d.Resumes a.owner frames a.method) {p q : Nat} {code : List Instruction}
    (hp : d.blockStart frames p ≤ a.position) (hp' : a.position < d.blockStart frames (p + 1))
    (hne : d.Survives frames p → a.position ≠ d.newPosition frames p)
    (hat : a.method.body.HasAt q code) (hcalls : CallsOnly MethodRef.Retains code)
    (hq : q ≤ a.position) (hq' : a.position < q + code.length) : a.Calm := by
  refine ⟨⟨d, frames, h, fun r i hi hsurvives hposition => ?_,
    fun kind method hi => (hcalls.get? hat hq hq' hi).1⟩,
    fun kind hi => (hcalls.get? hat hq hq' hi).2 rfl⟩
  obtain rfl := Method.eq_of_newPosition hp hp' hi hsurvives hposition
  exact hne hsurvives hposition

/-- What has been added isn't original. -/
theorem AddedTo.not_original (h : a.AddedTo d frames)
    (found : m₀.method? ⟨a.owner, a.method.name, a.method.type⟩ = some d) : ¬ a.Original m₀ := by
  rintro (hplain | ⟨d', frames', p, i, h', hi, hsurvives, hposition⟩)
  · rw [h.resumes.marked] at hplain
    cases hplain
  · obtain ⟨rfl, rfl⟩ := MadeFrom.unique ⟨found, h.resumes⟩ h'
    exact h.apart p i hi hsurvives hposition

end Activation

end Resumable
