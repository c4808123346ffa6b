import Resumable.Proofs.Typing

/-!
# The least typing

A typing with room gives frames to positions of a body in such a way that every instruction can be
analyzed at its frame, with the method's own operand stack, and leaves a frame below the frames of
all positions to which execution may go on.  `Method.analyze_least` says that the analysis succeeds
exactly if a method has such a typing, and that it finds the least one.

`Method.Typing` leaves aside the room on the operand stack.  The frames of a typing with room that
fit the operand stack are such a typing, and below it nothing overflows.
-/

namespace Resumable

/-- What a frame of a method with the given number of locals consists of: references to object and
array types, and on the operand stack nothing that's unknown. -/
structure Frame.Declared (maxLocals : Nat) (f : Frame) : Prop where
  localsLength : f.locals.length = maxLocals
  localsProper : ∀ v ∈ f.locals, v.IsProper
  stackProper : ∀ v ∈ f.stack, v.IsProper
  known : ∀ v ∈ f.stack, v ≠ .top

theorem Frame.WellFormed.declared {maxLocals : Nat} {f : Frame} (h : f.WellFormed maxLocals) :
    f.Declared maxLocals := ⟨h.localsLength, h.localsProper, h.stackProper, h.known⟩

namespace Method

variable {m : Method} {owner : String} {typing : Nat → Option Frame}

/-- Frames at positions of a method such that the analysis of each instruction succeeds and gives a
frame below those of all positions to which execution may go on. -/
structure RoomyTyping (m : Method) (owner : String) (typing : Nat → Option Frame) : Prop where
  labels : ∃ places, m.body.labelPositions = .ok places
  inRange : ∀ p f, typing p = some f → p < m.body.length
  declared : ∀ p f, typing p = some f → f.Declared m.maxLocals.toNat
  entry : ∃ entry f, m.entryFrame owner = .ok entry ∧ typing 0 = some f ∧ entry.Below f
  step : ∀ p f i, typing p = some f → m.body.get? p = some i →
    ∃ g, m.transfer f i = .ok g ∧ ∀ q, m.body.Leads p q → ∃ f', typing q = some f' ∧ g.Below f'

/-- What the analysis finds is a typing with room. -/
theorem Analyzed.roomyTyping {frames : Frames} (h : m.Analyzed owner frames) :
    m.RoomyTyping owner frames.at? where
  labels := h.labels
  inRange p f hf := h.length ▸ Frames.lt_of_at? hf
  declared p f hf := (h.wellFormed p f hf).declared
  entry := by
    obtain ⟨entry, hentry, f, hf, hbelow⟩ := h.entry
    exact ⟨entry, f, hentry, hf, hbelow⟩
  step p f i hf hi := by
    obtain ⟨j, g, hj, hg, ht⟩ := h.stable p f hf
    obtain rfl : i = j := Option.some.inj (hi.symm.trans hj)
    exact ⟨g, hg, ht⟩

/-- The frames that fit the method's operand stack. -/
def fitting (m : Method) (typing : Nat → Option Frame) (p : Nat) : Option Frame :=
  (typing p).filter fun f => f.stackSlots ≤ m.maxStack.toNat

theorem fitting_eq_some {p : Nat} {f : Frame} :
    m.fitting typing p = some f ↔ typing p = some f ∧ f.stackSlots ≤ m.maxStack.toNat := by
  simp [fitting, Option.filter_eq_some_iff]

namespace RoomyTyping

/-- What an instruction leaves fits if its frame does, and so do the frames above. -/
theorem step_fitting (h : m.RoomyTyping owner typing) {p : Nat} {f : Frame} {i : Instruction}
    (hf : m.fitting typing p = some f) (hi : m.body.get? p = some i) :
    ∃ g, m.transfer f i = .ok g ∧ g.stackSlots ≤ m.maxStack.toNat ∧
      ∀ q, m.body.Leads p q → ∃ f', m.fitting typing q = some f' ∧ g.Below f' := by
  obtain ⟨hf, hroom⟩ := fitting_eq_some.1 hf
  obtain ⟨g, hg, hleads⟩ := h.step p f i hf hi
  have hgroom := room_of_transfer hg hroom
  refine ⟨g, hg, hgroom, fun q hq => ?_⟩
  obtain ⟨f', hf', hbelow⟩ := hleads q hq
  refine ⟨f', fitting_eq_some.2 ⟨hf', ?_⟩, hbelow⟩
  rwa [← hbelow.stackSlots (h.declared q f' hf').known]

theorem typing_fitting (h : m.RoomyTyping owner typing) :
    m.Typing owner (m.fitting typing) where
  entry := by
    obtain ⟨entry, f, hentry, hf, hbelow⟩ := h.entry
    refine ⟨entry, f, hentry, fitting_eq_some.2 ⟨hf, ?_⟩, hbelow⟩
    rw [← hbelow.stackSlots (h.declared 0 f hf).known, Frame.stackSlots,
      (wellFormed_of_entryFrame hentry).2]
    exact Nat.zero_le _
  inRange p f hf := h.inRange p f (fitting_eq_some.1 hf).1
  known p f hf := (h.declared p f (fitting_eq_some.1 hf).1).known
  step p f i hf hi := by
    obtain ⟨g, hg, -, hleads⟩ := h.step_fitting hf hi
    exact ⟨g, rule_of_transfer hg, hleads⟩

/-- Below a typing with room the operand stack doesn't overflow. -/
theorem not_overflows_fitting (h : m.RoomyTyping owner typing) :
    ¬ Progress.Overflows m (m.fitting typing) := by
  rintro ⟨p, f, i, g, hf, hi, hrule, -, hover⟩
  obtain ⟨g', hg', hroom, -⟩ := h.step_fitting hf hi
  rcases transfer_of_rule hrule with ⟨hg, -⟩ | ⟨herror, -⟩
  · obtain rfl : g = g' := Except.ok.inj (hg.symm.trans hg')
    omega
  · rw [hg'] at herror
    cases herror

/-- A method with such a typing passes analysis, and the frames found are below the typing's. -/
theorem analyze (h : m.RoomyTyping owner typing) :
    ∃ frames, m.analyze owner = .ok frames ∧ Progress.Under typing frames := by
  rcases h.typing_fitting.analyze_cases h.labels with ⟨frames, hframes, hunder⟩ | ⟨-, hover⟩
  · refine ⟨frames, hframes, fun p f hf => ?_⟩
    obtain ⟨g, hg, hbelow⟩ := hunder p f hf
    exact ⟨g, (fitting_eq_some.1 hg).1, hbelow⟩
  · exact absurd hover h.not_overflows_fitting

end RoomyTyping

/-- The analysis succeeds exactly if the method has a typing with room.  What it finds is such a
typing, and below all others. -/
theorem analyze_least (m : Method) (owner : String) :
    ((∃ frames, m.analyze owner = .ok frames) ↔ ∃ typing, m.RoomyTyping owner typing) ∧
      ∀ frames, m.analyze owner = .ok frames → m.RoomyTyping owner frames.at? ∧
        ∀ typing, m.RoomyTyping owner typing → ∀ p f, frames.at? p = some f →
          ∃ g, typing p = some g ∧ f.Below g := by
  refine ⟨⟨?_, ?_⟩, fun frames hframes => ⟨?_, fun typing htyping => ?_⟩⟩
  · rintro ⟨frames, hframes⟩
    exact ⟨frames.at?, (analyzed_of_analyze hframes).roomyTyping⟩
  · rintro ⟨typing, htyping⟩
    obtain ⟨frames, hframes, -⟩ := htyping.analyze
    exact ⟨frames, hframes⟩
  · exact (analyzed_of_analyze hframes).roomyTyping
  · obtain ⟨frames', hframes', hunder⟩ := htyping.analyze
    obtain rfl : frames = frames' := Except.ok.inj (hframes.symm.trans hframes')
    exact hunder

end Method

end Resumable
