import Resumable.Instrumentation.Transform
import Resumable.Proofs.Labels

/-!
# Recomputed metadata

A method that has a typing gets a stack size and a stack map with which it's verified again, unless
its operand stack would be too large.
-/

namespace Resumable

/-- The size of the operand stack is the least that has room for all frames. -/
theorem Frames.maxStack_le_iff {frames : Frames} {n : Nat} :
    frames.maxStack ≤ n ↔ ∀ p f, frames.at? p = some f → f.stackSlots ≤ n := by
  simp only [Frames.maxStack, foldl_max_le_iff, Nat.zero_le, true_and, List.mem_filterMap,
    Option.map_eq_some_iff]
  constructor
  · intro h p f hf
    refine h _ ⟨some f, ?_, f, rfl, rfl⟩
    simp only [Frames.at?, Option.join_eq_some_iff] at hf
    exact List.mem_of_getElem? hf
  · rintro h _ ⟨_, hmem, f, rfl, rfl⟩
    obtain ⟨p, hp⟩ := List.mem_iff_getElem?.1 hmem
    exact h p f (by simp [Frames.at?, hp])

/-- A frame is consistent with those below it. -/
theorem Frame.Below.isConsistentWith {f g : Frame} (h : f.Below g) : g.isConsistentWith f := by
  have hstack := h.stack.length_eq
  have hlocals := h.locals.length_eq
  have hall {a b : List FrameValue} (hab : List.Forall₂ FrameValue.Below a b) :
      ∀ v ∈ b.zip a, v.1.isAssignableFrom v.2 := by
    induction hab with
    | nil => simp
    | cons hv _ ih => exact List.forall_mem_cons.2 ⟨hv, ih⟩
  simp only [Frame.isConsistentWith, hstack, hlocals, decide_true, Nat.le_refl, Bool.true_and,
    List.all_append, Bool.and_eq_true, List.all_eq_true]
  exact ⟨fun v hv => hall h.stack v hv, fun v hv => hall h.locals v hv⟩

/-- Which entries there are in a stack map. -/
theorem Body.mem_stackMap_iff {b : Body} {frames : Frames} {l : Label} {f : Frame} :
    ⟨l, f⟩ ∈ b.stackMap frames ↔
      (∃ p, b.get? p = some (.label l) ∧ frames.at? p = some f) ∧
        ∃ p i, b.get? p = some i ∧ l ∈ i.targets := by
  have hat (p : Nat) : frames.at? p = some f ↔ frames[p]? = some (some f) := Option.join_eq_some_iff
  have htargets : l ∈ b.instructions.flatMap Instruction.targets ↔
      ∃ p i, b.get? p = some i ∧ l ∈ i.targets := by
    rw [List.mem_flatMap]
    constructor
    · rintro ⟨i, hi, hl⟩
      obtain ⟨p, hp⟩ := List.mem_iff_getElem?.1 hi
      exact ⟨p, i, hp, hl⟩
    · rintro ⟨p, i, hp, hl⟩
      exact ⟨i, List.mem_of_getElem? hp, hl⟩
  rw [← htargets]
  simp only [stackMap, List.mem_filterMap, hat]
  constructor
  · rintro ⟨⟨i, f?⟩, hmem, hentry⟩
    split at hentry
    · rename_i l' f' heq
      cases heq
      split at hentry
      · rename_i hl
        cases hentry
        obtain ⟨p, hp⟩ := List.mem_iff_getElem?.1 hmem
        exact ⟨⟨p, List.getElem?_zip_eq_some.1 hp⟩, hl⟩
      · cases hentry
    · cases hentry
  · rintro ⟨⟨p, hp⟩, hl⟩
    refine ⟨(.label l, some f), List.mem_of_getElem? (List.getElem?_zip_eq_some.2 hp), ?_⟩
    simp only [hl, if_true]

namespace Method

variable {m m' : Method} {owner : String} {f g : Frame} {i : Instruction} {frames : Frames}
  {typing : Nat → Option Frame}

/-- The rules depend on what a method returns and on how many locals it has, and on nothing else. -/
theorem Rule.congr (h : m.Rule f i g) (htype : m'.type = m.type) (hmax : m'.maxLocals = m.maxLocals) :
    m'.Rule f i g := by
  cases h with
  | fixed effect operands => exact .fixed effect operands
  | shuffle moves => exact .shuffle moves
  | load inRange found hasKind => exact .load (hmax ▸ inRange) found hasKind
  | store hasKind inRange => exact .store hasKind (hmax ▸ inRange)
  | increment inRange found => exact .increment (hmax ▸ inRange) found
  | invoke operands => exact .invoke operands
  | arrayLength array => exact .arrayLength array
  | arrayLoad array => exact .arrayLoad array
  | arrayStore hasKind array => exact .arrayStore hasKind array
  | leaveNothing returns => exact .leaveNothing (htype ▸ returns)
  | leave returns fits => exact .leave (htype ▸ returns) fits

/-- A typing doesn't depend on the size of the operand stack or the stack map, and of the flags only
on whether the method has a receiver. -/
theorem Typing.congr (h : m.Typing owner typing) (htype : m'.type = m.type)
    (hmax : m'.maxLocals = m.maxLocals) (hstatic : m'.isStatic = m.isStatic)
    (hbody : m'.body = m.body) :
    m'.Typing owner typing where
  entry := by
    have hentry : m'.entryFrame owner = m.entryFrame owner := by
      simp only [entryFrame, entryLocals_congr htype hstatic owner, hmax]
    rw [hentry]
    exact h.entry
  inRange p f hf := hbody ▸ h.inRange p f hf
  known := h.known
  step p f i hf hi := by
    obtain ⟨g, hrule, hleads⟩ := h.step p f i hf (hbody ▸ hi)
    exact ⟨g, hrule.congr htype hmax, fun q hq => hleads q (hbody ▸ hq)⟩

/-- The entries of a stack map are at labels, whose frames they have. -/
theorem mem_stackMap {b : Body} {entry : StackMapEntry} (h : entry ∈ b.stackMap frames) :
    ∃ p, b.get? p = some (.label entry.label) ∧ frames.at? p = some entry.frame :=
  (Body.mem_stackMap_iff.1 h).1

/-- A stack map agrees with frames that are below the ones that it was made of. -/
theorem checkStackMap_of_under {frames' : Frames} (hlabels : ∃ places, m.body.labelPositions = .ok places)
    (hmap : m.stackMap = m.body.stackMap frames) (hunder : Progress.Under frames.at? frames') :
    m.checkStackMap frames' = .ok () := by
  refine Except.forM_eq_ok.2 fun entry hentry => ?_
  obtain ⟨p, hp, hf⟩ := mem_stackMap (hmap ▸ hentry)
  have hnodup := (Body.labelPositions_eq_ok.1 hlabels).1
  simp only [checkEntry, Body.position?_of_get? hnodup hp]
  cases hf' : frames'[p]?.join with
  | none => rfl
  | some f' =>
      obtain ⟨g, hg, hbelow⟩ := hunder p f' hf'
      obtain rfl : entry.frame = g := Option.some.inj (hf.symm.trans hg)
      simp [hbelow.isConsistentWith]

/-- The frames of a method don't take more slots than there can be. -/
theorem Analyzed.maxStack_le (h : m.Analyzed owner frames) : frames.maxStack ≤ maxSlots :=
  Nat.le_trans (Frames.maxStack_le_iff.2 h.room) (Nat.le_of_lt_succ m.maxStack.toNat_lt)

theorem Analyzed.toNat_maxStack (h : m.Analyzed owner frames) :
    (UInt16.ofNat frames.maxStack).toNat = frames.maxStack := by
  rw [UInt16.toNat_ofNat']
  exact Nat.mod_eq_of_lt (Nat.lt_of_le_of_lt h.maxStack_le (by decide))

/-- In a method with the stack size that its frames need nothing overflows. -/
theorem not_overflows (h : m.Analyzed owner frames) (hstack : frames.maxStack ≤ m'.maxStack.toNat) :
    ¬ Progress.Overflows m' frames.at? := by
  rintro ⟨p, f, i, g, hf, hi, hrule, hleads, hover⟩
  have hroom := Frames.maxStack_le_iff.1 hstack
  cases hfalls : i.fallsThrough with
  | true =>
      obtain ⟨f', hf', hbelow⟩ := hleads _ (.next hi hfalls)
      have := hroom _ f' hf'
      rw [hbelow.stackSlots (h.wellFormed _ f' hf').known] at hover
      omega
  | false =>
      have hsuffix := hrule.suffix_of_not_fallsThrough hfalls
      have := hroom p f hf
      have hle := Frame.stackSlots_le_of_suffix hsuffix
      omega

/-- A method that has a typing is verified with the metadata that's computed for it, and its frames
are below every typing, unless its operand stack would be too large. -/
theorem recompute_cases (h : m.Typing owner typing)
    (hlabels : ∃ places, m.body.labelPositions = .ok places) :
    (∃ needed, m.recompute owner = .error (.limitExceeded m.signature .stack needed)) ∨
      ∃ maxStack stackMap frames,
        m.recompute owner = .ok { m with maxStack, stackMap } ∧
        ({ m with maxStack, stackMap } : Method).analyze owner = .ok frames ∧
        ({ m with maxStack, stackMap } : Method).checkStackMap frames = .ok () ∧
        ∀ typing, m.Typing owner typing → Progress.Under typing frames := by
  have htyping : ({ m with maxStack := UInt16.ofNat maxSlots } : Method).Typing owner typing :=
    h.congr rfl rfl rfl rfl
  rcases htyping.analyze_cases hlabels with ⟨frames, hframes, -⟩ | ⟨⟨position, herror⟩, -⟩
  · right
    have hanalyzed := analyzed_of_analyze hframes
    have hto := hanalyzed.toNat_maxStack
    -- The frames found with plenty of room are a typing of the method with the room they need.
    have hagain : ({ m with
        maxStack := UInt16.ofNat frames.maxStack
        stackMap := m.body.stackMap frames } : Method).Typing owner frames.at? :=
      hanalyzed.typing.congr rfl rfl rfl rfl
    rcases hagain.analyze_cases hlabels with ⟨frames', hframes', hunder⟩ | ⟨-, hover⟩
    · refine ⟨_, _, frames', ?_, hframes', checkStackMap_of_under hlabels rfl hunder, ?_⟩
      · simp only [recompute, hframes]
      · intro typing' htyping'
        have htyping'' : ({ m with
            maxStack := UInt16.ofNat frames.maxStack
            stackMap := m.body.stackMap frames } : Method).Typing owner typing' :=
          htyping'.congr rfl rfl rfl rfl
        rcases htyping''.analyze_cases hlabels with ⟨frames'', hframes'', hunder'⟩ | ⟨⟨_, he⟩, -⟩
        · obtain rfl : frames'' = frames' := Except.ok.inj (hframes''.symm.trans hframes')
          exact hunder'
        · rw [hframes'] at he
          cases he
    · exact absurd hover (not_overflows hanalyzed (Nat.le_of_eq hto.symm))
  · left
    exact ⟨maxSlots + 1, by simp only [recompute, herror]; rfl⟩

/-- What recomputed metadata is made of. -/
theorem recompute_eq_ok (h : m.recompute owner = .ok m') : ∃ frames,
    ({ m with maxStack := UInt16.ofNat maxSlots } : Method).analyze owner = .ok frames ∧
      m' = { m with
        maxStack := UInt16.ofNat frames.maxStack
        stackMap := m.body.stackMap frames } := by
  simp only [recompute] at h
  split at h
  · split at h <;> cases h
  · rename_i frames hframes
    cases h
    exact ⟨frames, hframes, rfl⟩

/-- A method with recomputed metadata is verified, whatever becomes of its other flags. -/
theorem verify_of_recompute (h : m.recompute owner = .ok m') {access : AccessFlags}
    (hstatic : access.isStatic = m.isStatic) :
    ∃ frames, ({ m' with access } : Method).analyze owner = .ok frames ∧
      ({ m' with access } : Method).checkStackMap frames = .ok () := by
  obtain ⟨frames, hframes, rfl⟩ := recompute_eq_ok h
  have hanalyzed := analyzed_of_analyze hframes
  have hto := hanalyzed.toNat_maxStack
  have htyping : ({ m with
      access
      maxStack := UInt16.ofNat frames.maxStack
      stackMap := m.body.stackMap frames } : Method).Typing owner frames.at? :=
    hanalyzed.typing.congr rfl rfl hstatic rfl
  rcases htyping.analyze_cases hanalyzed.labels with ⟨frames', hframes', hunder⟩ | ⟨-, hover⟩
  · exact ⟨frames', hframes', checkStackMap_of_under hanalyzed.labels rfl hunder⟩
  · exact absurd hover (not_overflows hanalyzed (Nat.le_of_eq hto.symm))

end Method

end Resumable
