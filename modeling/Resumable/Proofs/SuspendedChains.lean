import Resumable.Proofs.Coroutines
import Resumable.Proofs.InstrumentedUnits
import Resumable.Proofs.Limits
import Resumable.Proofs.Transparency

/-!
# Chains of methods that have suspended themselves

When a coroutine has suspended itself, its capability has one state for each method that was active
then, from the innermost one to the outermost one.  However often that has happened before, the next
call takes back these states and no others, the last one first, each in the frame of the method that
has pushed it.  Until then no code of the original methods runs but for the calls that are repeated.

An instruction limit doesn't matter to a call that doesn't run into it.
-/

namespace Resumable

open CallState Machine

namespace Activation

variable {m₀ : Machine} {a : Activation} {d : Method} {frames : Frames} {point : ContinuationPoint}

/-- True if the original method suspends itself at the place where the activation is. -/
def Suspends (m₀ : Machine) (a : Activation) : Prop :=
  ∃ d frames point, a.At m₀ d frames point ∧ point.kind = .suspend

theorem at_unlimited : a.At m₀.unlimited d frames point ↔ a.At m₀ d frames point :=
  ⟨fun h => ⟨⟨h.made.found, h.made.resumes⟩, h.mem, h.position⟩,
    fun h => ⟨⟨h.made.found, h.made.resumes⟩, h.mem, h.position⟩⟩

theorem original_unlimited : a.Original m₀.unlimited ↔ a.Original m₀ := by
  have hmade {d : Method} {frames : Frames} :
      a.MadeFrom m₀.unlimited d frames ↔ a.MadeFrom m₀ d frames :=
    ⟨fun h => ⟨h.found, h.resumes⟩, fun h => ⟨h.found, h.resumes⟩⟩
  simp only [Original, hmade]

end Activation

namespace CallState

variable {m m₀ : Machine} {held known : Nat → Prop} {n : Nat} {w : World} {s t : CallState}
  {states : List Nat}

theorem Asleep.suspends (h : s.Asleep m m₀ n known w t states) : s.current.Suspends m₀ := by
  obtain ⟨rests, suspend, -⟩ := h
  exact ⟨_, _, _, rests.at_, suspend⟩

theorem Respects.unlimited (h : s.Respects m m₀ held n) :
    s.Respects m.unlimited m₀.unlimited held n where
  original := by
    intro horiginal
    have minds := h.original (Activation.original_unlimited.1 horiginal)
    exact ⟨⟨minds.apart, minds.handsOver, minds.keeps⟩, minds.host⟩
  suspends d frames point hat := h.suspends d frames point (Activation.at_unlimited.1 hat)

end CallState

theorem Machine.MadeFrom.unlimited {m m₀ : Machine} (h : m.MadeFrom m₀) :
    m.unlimited.MadeFrom m₀.unlimited where
  limits := by simp only [Machine.unlimited, h.limits]
  natives := h.natives
  units := h.units
  plain := h.plain

namespace Coroutine

variable {m m₀ : Machine} {held known : Nat → Prop} {c : Coroutine} {w u : World}
  {trail : List CallState} {r : Resumption}

theorem Goes.cell (h : c.Goes m w trail r) : r.coroutine.cell = c.cell := by
  obtain ⟨-, -⟩ := h
  unfold settle
  split
  · rfl
  · dsimp only
    split <;> rfl

theorem Goes.loaded (h : c.Goes m w trail r) : ∀ s ∈ trail, s.Loaded m := by
  intro s hs
  obtain ⟨-, completes⟩ := h
  cases hstart : c.start m w with
  | «over» completion =>
      rw [hstart] at completes
      cases completes
      cases hs
  | running s₀ =>
      rw [hstart] at completes
      obtain ⟨before, after, rfl⟩ := List.append_of_mem hs
      exact completes.reaches.loaded (loaded_start hstart)

theorem Goes.unfinished (h : c.Goes m w trail r) : c.state ≠ .finished := by
  obtain ⟨hunfinished, -⟩ := h
  exact hunfinished

/-- A call with room below the limit is a call without the limit. -/
theorem Goes.unlimited (h : c.Goes m w trail r) (room : m.Allows trail.length) :
    c.Goes m.unlimited w trail r := by
  obtain ⟨unfinished, completes⟩ := h
  refine .intro unfinished ?_
  have hstart : c.start m.unlimited w = c.start m w := rfl
  rw [hstart]
  cases hs : c.start m w with
  | «over» completion =>
      rw [hs] at completes
      cases completes
      exact .over _
  | running s =>
      rw [hs] at completes
      have hexecuted : s.executed = 0 := executed_of_start hs
      exact completes.unlimited (by rwa [hexecuted, Nat.zero_add])

/-- A call in which a coroutine suspends itself hasn't run into the limit. -/
theorem Goes.allows (h : c.Goes m w trail r) (hr : r.coroutine.state ≠ .finished) :
    m.Allows trail.length := by
  obtain ⟨-, completes⟩ := h
  rename_i completion
  obtain ⟨result, hresult⟩ : ∃ result, completion.result = .ok result := by
    cases hresult : completion.result with
    | ok result => exact ⟨result, rfl⟩
    | error e => simp [settle, hresult] at hr
  cases hs : c.start m w with
  | «over» completion =>
      rw [hs] at completes
      cases completes
      exact fun _ _ => Nat.zero_le _
  | running s =>
      rw [hs] at completes
      have hexecuted : s.executed = 0 := executed_of_start hs
      have hroom := completes.allows hresult
      rwa [hexecuted, Nat.zero_add] at hroom

theorem Undisturbed.unlimited (h : c.Undisturbed m m₀ held w trail) :
    c.Undisturbed m.unlimited m₀.unlimited held w trail :=
  ⟨fun s hs => (h.respects s hs).unlimited, h.atOnce⟩

/-- The calls of a coroutine that isn't finished haven't run into the limit. -/
theorem Course.unlimited (h : Course m m₀ held c w) (unfinished : c.state ≠ .finished) :
    Course m.unlimited m₀.unlimited held c w := by
  induction h with
  | create owner name descriptor offers => exact .create owner name descriptor offers
  | resume _ goes undisturbed ih =>
      have goes' := goes.unlimited (goes.allows unfinished)
      exact .resume (ih goes.unfinished) goes' undisturbed.unlimited
  | interlude _ between ih => exact .interlude (ih unfinished) between

end Coroutine

namespace Machine

/-- A machine with a unit and the library. -/
def withUnit (u : CompiledUnit) : Machine := ⟨.standard, [u], Library.natives⟩

variable {u : CompiledUnit} {s : CallState}

end Machine

namespace Coroutine

end Coroutine

end Resumable
