import Resumable.Proofs.RenamedExecution
import Resumable.Proofs.Safety

/-!
# About to execute

What is known of a method that's about to execute an instruction: the analyzed frames around it, and
that its own frame conforms to the one before it.
-/

namespace Resumable

theorem Method.Rule.length_locals {d : Method} {g g' : Frame} {i : Instruction} (h : d.Rule g i g') :
    g'.locals.length = g.locals.length := by
  cases h with
  | store => exact Frame.length_storeLocals ..
  | _ => rfl

namespace Activation

variable {known known' : Nat → Prop} {w w' : World} {a a' : Activation} {frames : Frames}

/-- An analyzed instruction that's about to be executed in a frame that conforms. -/
structure Poised (known : Nat → Prop) (w : World) (a : Activation) (frames : Frames) (g : Frame)
    (i : Instruction) (g' : Frame) : Prop where
  analyze : a.method.analyze a.owner = .ok frames
  frame : frames.at? a.position = some g
  get? : a.method.body.get? a.position = some i
  rule : a.method.Rule g i g'
  admits : ∀ q, a.method.body.Leads a.position q → frames.Admits q g'
  conforms : a.frame.Conforms known w g
  executes : a.frame.Executes a.method known w i g'

theorem Runs.poised (h : a.Runs known w) (hw : w.Sound known) :
    ∃ frames g i g', a.Poised known w frames g i g' := by
  obtain ⟨frames, g, hframes, hg, hf⟩ := h
  have analyzed := Method.analyzed_of_analyze hframes
  obtain ⟨i, g', hi, htransfer, hadmits⟩ := analyzed.stable _ g hg
  have hrule := Method.rule_of_transfer htransfer
  exact ⟨frames, g, i, g', hframes, hg, hi, hrule, hadmits, hf,
    ValueFrame.executes_of_rule hrule (analyzed.wellFormed _ g hg) hw hf⟩

namespace Poised

variable {g g' : Frame} {i : Instruction} (h : a.Poised known w frames g i g')

include h

theorem analyzed : a.method.Analyzed a.owner frames := Method.analyzed_of_analyze h.analyze

theorem wellFormed : g.WellFormed a.method.maxLocals.toNat := h.analyzed.wellFormed _ g h.frame

theorem length : a.frame.locals.length = a.method.maxLocals.toNat :=
  h.conforms.locals.length_eq.trans h.wellFormed.localsLength

/-- The instruction works on a local that there is. -/
theorem local_lt (k : Nat) (hk : i.local? = some k) : k < a.frame.locals.length := by
  rw [h.length]
  have hrule := h.rule
  cases hrule with
  | fixed effect =>
      cases i with
      | load | store | increment => cases effect
      | _ => cases hk
  | shuffle moves => cases moves <;> cases hk
  | load inRange =>
      cases hk
      refine Nat.lt_of_le_of_lt ?_ inRange
      simp only [lastSlot]
      split <;> omega
  | store _ inRange =>
      cases hk
      refine Nat.lt_of_le_of_lt ?_ inRange
      simp only [lastSlot]
      split <;> omega
  | increment inRange =>
      cases hk
      exact inRange
  | _ => cases hk

end Poised

end Activation

end Resumable
