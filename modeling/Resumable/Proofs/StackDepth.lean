import Resumable.Proofs.Reverification

/-!
# Methods whose operand stacks can't be too large

An instruction needs two more slots on the operand stack at most.  The frame at a position has come
there from position to position, so it has no more than two slots for each position that has a
frame. The resumable form of a method that isn't extremely long has room for its operand stack.
-/

namespace Resumable

theorem FrameValue.slots_le (v : FrameValue) : v.slots ≤ 2 := by
  simp only [slots]
  split <;> omega

namespace Method

variable {m : Method} {owner : String} {f g : Frame} {i : Instruction}

/-- An instruction leaves one value at most, but for those that move values. -/
theorem length_of_fixedEffect? {kinds : List ValueKind} {given : List FrameValue}
    (h : i.fixedEffect? = some (kinds, given)) : given.length ≤ 1 := by
  cases i <;> simp only [Instruction.fixedEffect?] at h <;> grind

/-- No instruction needs more than two slots more. -/
theorem Rule.stackSlots_le (h : m.Rule f i g) : g.stackSlots ≤ f.stackSlots + 2 := by
  have hone {given : List FrameValue} (hlength : given.length ≤ 1) (locals : List FrameValue) :
      Frame.stackSlots ⟨locals, given⟩ ≤ 2 := by
    match given, hlength with
    | [], _ => exact Nat.zero_le 2
    | [v], _ => exact v.slots_le
  cases h with
  | @fixed _ kinds given taken locals stack effect operands =>
      have := hone (length_of_fixedEffect? effect) locals
      rw [Frame.stackSlots_append, Frame.stackSlots_append]
      omega
  | @shuffle _ taken given locals stack moves =>
      rw [Frame.stackSlots_append, Frame.stackSlots_append]
      cases moves <;> simp only [Frame.stackSlots_cons, Frame.stackSlots_nil, FrameValue.slots] <;>
        simp_all <;> omega
  | @load kind index v locals stack =>
      have := v.slots_le
      rw [Frame.stackSlots_cons]
      omega
  | @store kind index v locals stack =>
      rw [Frame.stackSlots_cons]
      change Frame.stackSlots ⟨locals, stack⟩ ≤ _
      omega
  | increment => omega
  | @invoke kind method taken locals stack =>
      have hgiven : (method.type.returns.map FrameValue.ofType).toList.length ≤ 1 := by
        cases method.type.returns <;> simp
      have := hone hgiven locals
      rw [Frame.stackSlots_append, Frame.stackSlots_append]
      omega
  | arrayLength =>
      have := FrameValue.int.slots_le
      rw [Frame.stackSlots_cons, Frame.stackSlots_cons]
      omega
  | @arrayLoad v element kind locals stack =>
      have := element.slots_le
      rw [Frame.stackSlots_cons, Frame.stackSlots_cons, Frame.stackSlots_cons]
      omega
  | arrayStore =>
      rw [Frame.stackSlots_cons, Frame.stackSlots_cons, Frame.stackSlots_cons]
      omega
  | leaveNothing => omega
  | leave =>
      rw [Frame.stackSlots_cons]
      omega

end Method

namespace Progress

variable {m : Method} {owner : String} {places : List (Label × Nat)} {s t : Progress} {q : Nat}
  {typing : Nat → Option Frame} {f g : Frame}

/-- The number of positions that have a frame. -/
def seen (frames : Frames) : Nat := frames.countP Option.isSome

/-- True if the frames known so far are below those of the typing, which have no more slots than
they can have got. -/
structure Shallow (typing : Nat → Option Frame) (frames : Frames) : Prop where
  under : Under typing frames
  shallow : ∀ p f, frames.at? p = some f → f.stackSlots + 2 ≤ 2 * seen frames

theorem seen_le_length (frames : Frames) : seen frames ≤ frames.length := List.countP_le_length

theorem seen_update_of_none (h : s.frames[q]? = some none) (f : Frame) :
    seen (s.update q f).frames = seen s.frames + 1 := by
  obtain ⟨hq, hnone⟩ := List.getElem?_eq_some_iff.1 h
  simp [seen, update, List.countP_set, hq, hnone]

theorem seen_update_of_some {known : Frame} (h : s.frames[q]? = some (some known)) (f : Frame) :
    seen (s.update q f).frames = seen s.frames := by
  obtain ⟨hq, hsome⟩ := List.getElem?_eq_some_iff.1 h
  have hpos : 0 < seen s.frames :=
    List.countP_pos_iff.2 ⟨_, List.getElem_mem hq, by simp [hsome]⟩
  simp only [seen] at hpos
  simp only [seen, update, List.countP_set, hq, hsome]
  simp
  omega

/-- A frame that arrives somewhere. -/
theorem shallow_of_flowInto {position : Nat} (hs : Shallow typing s.frames) (hg : typing q = some g)
    (hf : f.Below g) (known : ∀ v ∈ g.stack, v ≠ .top) (hroom : f.stackSlots ≤ 2 * seen s.frames)
    (h : flowInto position f s q = .ok t) :
    Shallow typing t.frames ∧ seen s.frames ≤ seen t.frames := by
  have hunder : Under typing t.frames := by
    obtain ⟨t', ht', hunder⟩ := under_of_flowInto position hs.under hg hf known
    obtain rfl : t' = t := Except.ok.inj (ht'.symm.trans h)
    exact hunder
  have hslots {b : Frame} (hb : Frames.at? t.frames q = some b) : b.stackSlots = f.stackSlots := by
    obtain ⟨g', hg', hbelow⟩ := hunder q b hb
    obtain rfl : g = g' := Option.some.inj (hg.symm.trans hg')
    rw [hbelow.stackSlots known, hf.stackSlots known]
  rw [flowInto_eq] at h
  split at h
  · cases h
    exact ⟨hs, Nat.le_refl _⟩
  · rename_i hnone
    cases h
    have hseen := seen_update_of_none hnone f
    refine ⟨⟨hunder, fun p b hb => ?_⟩, by omega⟩
    rw [at?_update s (List.getElem?_eq_some_iff.1 hnone).1] at hb
    split at hb
    · cases hb
      omega
    · have := hs.shallow p b hb
      omega
  · rename_i before hbefore
    split at h
    · cases h
    · cases h
    · cases h
      split
      · exact ⟨hs, Nat.le_refl _⟩
      · rename_i merged hmerged hne
        rw [if_neg hne] at hslots hunder
        have hseen := seen_update_of_some hbefore merged
        refine ⟨⟨hunder, fun p b hb => ?_⟩, Nat.le_of_eq hseen.symm⟩
        rw [hseen]
        have hb' := hb
        rw [at?_update s (List.getElem?_eq_some_iff.1 hbefore).1] at hb
        split at hb
        · rename_i hp
          subst hp
          obtain ⟨g', hg', hbelow⟩ := hs.under p before (by simp [Frames.at?, hbefore])
          obtain rfl : g = g' := Option.some.inj (hg.symm.trans hg')
          have := hs.shallow p before (by simp [Frames.at?, hbefore])
          rw [hslots hb', hf.stackSlots known, ← hbelow.stackSlots known]
          exact this
        · exact hs.shallow p b hb

theorem shallow_of_foldlM {position : Nat} {targets : List Nat} (hs : Shallow typing s.frames)
    (ht : ∀ q ∈ targets, ∃ g, typing q = some g ∧ f.Below g ∧ ∀ v ∈ g.stack, v ≠ .top)
    (hroom : f.stackSlots ≤ 2 * seen s.frames)
    (h : targets.foldlM (flowInto position f) s = .ok t) :
    Shallow typing t.frames ∧ seen s.frames ≤ seen t.frames := by
  induction targets generalizing s with
  | nil =>
      cases h
      exact ⟨hs, Nat.le_refl _⟩
  | cons q targets ih =>
      rw [List.forall_mem_cons] at ht
      obtain ⟨⟨g, hg, hf, known⟩, ht⟩ := ht
      obtain ⟨u, hu, h⟩ := Except.bind_eq_ok.1 h
      obtain ⟨hus, hle⟩ := shallow_of_flowInto hs hg hf known hroom hu
      obtain ⟨hts, hle'⟩ := ih hus ht (by omega) h
      exact ⟨hts, Nat.le_trans hle hle'⟩

/-- Below a typing nothing goes wrong if there's as much room as the method can need. -/
theorem follow_of_shallow (position : Nat) (htyping : m.Typing owner typing)
    (hplaces : m.body.labelPositions = .ok places) (hlength : s.frames.length = m.body.length)
    (hs : Shallow typing s.frames) (hroom : 2 * m.body.length ≤ m.maxStack.toNat) :
    ∃ t, follow m places position s = .ok t ∧ Shallow typing t.frames := by
  cases hf : Frames.at? s.frames position with
  | none =>
      have hf' : s.frames[position]?.join = none := hf
      simp only [follow, hf']
      exact ⟨s, rfl, hs⟩
  | some f =>
      have hf' : s.frames[position]?.join = some f := hf
      obtain ⟨i, hi⟩ := Body.get?_of_lt (hlength ▸ Frames.lt_of_at? hf)
      obtain ⟨f₂, hf₂, hbelow⟩ := hs.under position f hf
      obtain ⟨g₂, hrule₂, hleads⟩ := htyping.step position f₂ i hf₂ hi
      obtain ⟨g, hrule, hg⟩ := hrule₂.mono hbelow (htyping.known position f₂ hf₂)
      have arrives (q : Nat) (hq : m.body.Leads position q) :
          ∃ f', typing q = some f' ∧ g.Below f' ∧ ∀ v ∈ f'.stack, v ≠ .top := by
        obtain ⟨f', hf', hbelow'⟩ := hleads q hq
        exact ⟨f', hf', hg.trans hbelow', htyping.known q f' hf'⟩
      have hshallow : g.stackSlots ≤ 2 * seen s.frames :=
        Nat.le_trans hrule.stackSlots_le (hs.shallow position f hf)
      have hseen := seen_le_length s.frames
      have htransfer := Method.transfer_eq_of_rule hrule (by omega)
      have hjumps := fun q hq => arrives q ((Body.leads_iff hplaces hi).2 (.inl hq))
      simp only [follow, hf', hi, htransfer]
      obtain ⟨u, hu, -⟩ := under_of_foldlM position hs.under hjumps
      obtain ⟨hus, hle⟩ := shallow_of_foldlM hs hjumps hshallow hu
      rw [hu]
      by_cases hfalls : i.fallsThrough
      · obtain ⟨f₃, hf₃, hbelow₃, known₃⟩ := arrives _ (.next hi hfalls)
        have hlast : position + 1 ≠ u.frames.length := by
          have := htyping.inRange _ f₃ hf₃
          rw [length_foldlM hu, hlength]
          omega
        simp only [hfalls, not_true, if_false, hlast]
        obtain ⟨t, ht, -⟩ := under_of_flowInto position hus.under hf₃ hbelow₃ known₃
        exact ⟨t, ht, (shallow_of_flowInto hus hf₃ hbelow₃ known₃ (by omega) ht).1⟩
      · simp only [hfalls]
        exact ⟨u, rfl, hus⟩

end Progress

namespace Method

variable {m : Method} {owner : String} {typing : Nat → Option Frame}

/-- A method that has a typing passes analysis if it has two slots for each of its instructions. -/
theorem Typing.analyze_of_room (h : m.Typing owner typing)
    (hlabels : ∃ places, m.body.labelPositions = .ok places)
    (hroom : 2 * m.body.length ≤ m.maxStack.toNat) : ∃ frames, m.analyze owner = .ok frames := by
  obtain ⟨places, hplaces⟩ := hlabels
  obtain ⟨entry, f, hentry, hf, hbelow⟩ := h.entry
  have hne : m.body.length ≠ 0 := by
    have := h.inRange 0 f hf
    omega
  have hat (p : Nat) : Frames.at? (Progress.start m.body.length entry).frames p =
      if p = 0 then some entry else none := by
    cases p with
    | zero => rfl
    | succ p =>
        simp only [Frames.at?, Progress.start, List.getElem?_cons_succ, List.getElem?_replicate]
        split <;> simp
  have hstart : Progress.Shallow typing (Progress.start m.body.length entry).frames := by
    constructor
    · intro p g hg
      rw [hat] at hg
      split at hg
      · cases hg
        exact ⟨f, by simp_all, hbelow⟩
      · cases hg
    · intro p g hg
      rw [hat] at hg
      split at hg
      · cases hg
        have hempty : entry.stackSlots = 0 := by
          rw [Frame.stackSlots, (wellFormed_of_entryFrame hentry).2]
          rfl
        have hseen : 0 < Progress.seen (Progress.start m.body.length entry).frames := by
          simp [Progress.seen, Progress.start]
        omega
      · cases hg
  have hlength : (Progress.start m.body.length entry).frames.length = m.body.length := by
    simp only [Progress.start, List.length_cons, List.length_replicate]
    omega
  simp only [analyze, hplaces, hentry, hne, if_false]
  have hstep (s t : Progress) (position : Nat) (rest : List Nat)
      (hs : s.frames.length = m.body.length ∧ Progress.Shallow typing s.frames)
      (_ : s.pending = position :: rest)
      (ht : Progress.follow m places position { s with pending := rest } = .ok t) :
      t.frames.length = m.body.length ∧ Progress.Shallow typing t.frames := by
    obtain ⟨t', ht', hshallow⟩ := Progress.follow_of_shallow (s := { s with pending := rest })
      position h hplaces hs.1 hs.2 hroom
    obtain rfl : t' = t := Except.ok.inj (ht'.symm.trans ht)
    exact ⟨(Progress.length_follow ht).trans hs.1, hshallow⟩
  rcases Progress.run_cases ⟨hlength, hstart⟩ hstep with
    ⟨frames, hrun, -⟩ | ⟨s, position, rest, e, hrun, ⟨hl, hs⟩, -, he⟩
  · exact ⟨frames, hrun⟩
  · obtain ⟨t, ht, -⟩ := Progress.follow_of_shallow (s := { s with pending := rest })
      position h hplaces hl hs hroom
    rw [ht] at he
    cases he

/-- Making a method resumable comes down to the metadata of its new body. -/
theorem transform_eq_recompute {frames : Frames}
    (supported : ∀ i ∈ m.body.instructions, i.isUnsupported = false)
    (analyzed : m.analyze owner = .ok frames)
    (room : m.maxLocals.toNat + SlotTable.extraSlots ≤ maxSlots) :
    m.transform owner = (m.weave frames).recompute owner := by
  have hsupported : m.checkSupported = .ok () := by
    simp only [checkSupported]
    rw [List.find?_eq_none.2 fun ip hip => by simp [supported ip.1 (List.fst_mem_of_mem_zipIdx hip)]]
  have hroom : ¬ maxSlots < m.maxLocals.toNat + SlotTable.extraSlots := Nat.not_lt.2 room
  simp only [transform, hsupported, analyzed, hroom, if_false, Except.ok_bind]

/-- A resumable method has a typing, and its labels are in order. -/
theorem exists_typing_weave {frames : Frames} (h : m.Analyzed owner frames)
    (eligible : m.type.isEligible) (room : m.maxLocals.toNat + SlotTable.extraSlots ≤ maxSlots)
    (counter : ∀ l ∈ Body.placed m.body.instructions, l.number < m.body.nextLabel)
    (enough : m.body.nextLabel.toNat + m.freshLabelCount frames ≤ 4294967295) :
    (∃ typing : Frames, (m.weave frames).Typing owner typing.at?) ∧
      ∃ places, (m.weave frames).body.labelPositions = .ok places := by
  have hnodup := nodup_placed_weave h counter enough
  obtain ⟨i, hi⟩ := Body.get?_of_lt (Nat.pos_of_ne_zero h.length_ne_zero)
  obtain ⟨typing, htyping, -⟩ := exists_typing (w := m.weave frames) h eligible
    (widens_weave frames room) rfl rfl rfl room hnodup hi
  exact ⟨⟨typing, htyping⟩, labels_weave h hnodup⟩

/-- The stack of a method that isn't extremely long isn't too large for it to be resumable. -/
theorem transform_of_length {frames : Frames} (eligible : m.type.isEligible)
    (supported : ∀ i ∈ m.body.instructions, i.isUnsupported = false)
    (analyzed : m.analyze owner = .ok frames)
    (room : m.maxLocals.toNat + SlotTable.extraSlots ≤ maxSlots)
    (counter : ∀ l, .label l ∈ m.body.instructions → l.number < m.body.nextLabel)
    (enough : m.body.nextLabel.toNat + m.freshLabelCount frames ≤ 4294967295)
    (hlength : 2 * (m.weave frames).body.length ≤ maxSlots) :
    ∃ m' frames', m.transform owner = .ok m' ∧ m'.analyze owner = .ok frames' ∧
      m'.checkStackMap frames' = .ok () := by
  obtain ⟨⟨typing, htyping⟩, hlabels⟩ := exists_typing_weave (analyzed_of_analyze analyzed) eligible
    room (fun l hl => by
      obtain ⟨i, hi, hplaced⟩ := List.mem_filterMap.1 hl
      exact counter l (Body.placed?_eq_some.1 hplaced ▸ hi)) enough
  have hfirst := transform_eq_recompute supported analyzed room
  rcases recompute_cases htyping hlabels with ⟨needed, hlimit⟩ |
    ⟨maxStack, stackMap, frames', hok, hanalyzed, hchecked, -⟩
  · have hwide : ({ m.weave frames with maxStack := UInt16.ofNat maxSlots } : Method).Typing owner
        typing.at? := htyping.congr rfl rfl rfl rfl
    obtain ⟨frames', hframes'⟩ := hwide.analyze_of_room hlabels hlength
    simp only [recompute, hframes'] at hlimit
    cases hlimit
  · exact ⟨_, frames', hfirst.trans hok, hanalyzed, hchecked⟩

end Method

end Resumable
