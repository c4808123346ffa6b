import Mathlib.Order.WellFounded
import Resumable.Proofs.Typing

/-!
# Every analysis ends

The analysis pops waiting positions one by one, and positions whose frames change wait again.  There's
no common bound on how often that may be, since null is below arrays of every depth.  But each pop
leaves less to do, so no sequence of pops goes on for ever, whatever state it starts from.

Here the loop is given a limit on the number of its pops.  For each method there is a number of pops
from which on it gives what the analysis gives, and below which it's cut short.
-/

namespace Resumable

namespace Progress

variable {m : Method} {places : List (Label × Nat)} {s t : Progress}

/-- True if the second state is left by the first one's next pop: of the position that has waited
for the shortest time, which is then followed. -/
inductive Pops (m : Method) (places : List (Label × Nat)) (s t : Progress) : Prop
  | follow {position : Nat} {rest : List Nat} (waiting : s.pending = position :: rest)
      (followed : follow m places position { s with pending := rest } = .ok t)

/-- Each pop leaves less to do. -/
theorem Pops.remaining (h : Pops m places s t) :
    WellFoundedRelation.rel t.remaining s.remaining := by
  obtain ⟨waiting, followed⟩ := h
  exact remaining_of_follow waiting followed

/-- No sequence of pops goes on for ever. -/
theorem wellFounded_pops (m : Method) (places : List (Label × Nat)) :
    WellFounded fun t s => Pops m places s t := by
  apply Subrelation.wf (r := fun t s : Progress => WellFoundedRelation.rel t.remaining s.remaining)
  · intro t s h
    exact h.remaining
  · exact InvImage.wf Progress.remaining WellFoundedRelation.wf

/-- Follows the waiting positions as `run` does, but gives nothing if the limit on the number of pops
is reached while positions are waiting. -/
def runWithin (m : Method) (places : List (Label × Nat)) :
    (limit : Nat) → Progress → Option (Except AnalysisError Frames)
  | 0, s => if s.pending = [] then some (.ok s.frames) else none
  | limit + 1, s =>
    match s.pending with
    | [] => some (.ok s.frames)
    | position :: rest =>
      match follow m places position { s with pending := rest } with
      | .error e => some (.error e)
      | .ok t => runWithin m places limit t

/-- The loop pops a position if one is waiting, and goes on. -/
theorem run_eq (m : Method) (places : List (Label × Nat)) (s : Progress) :
    s.run m places =
      match s.pending with
      | [] => .ok s.frames
      | position :: rest =>
        match follow m places position { s with pending := rest } with
        | .error e => .error e
        | .ok t => t.run m places := by
  rw [run]
  split
  · rename_i hs
    rw [hs]
  · rename_i position rest hs
    rw [hs]
    dsimp only
    split
    · rename_i e hf
      rw [hf]
    · rename_i t hf
      rw [hf]

/-- From every state, the loop ends with the result of the analysis after some number of pops. -/
theorem exists_runWithin (m : Method) (places : List (Label × Nat)) (s : Progress) :
    ∃ pops, ∀ limit,
      s.runWithin m places limit = if pops ≤ limit then some (s.run m places) else none := by
  -- Each state that a pop leaves has its own number of pops, which is one less.
  induction s using (wellFounded_pops m places).induction with
  | _ s ih =>
      cases hs : s.pending with
      | nil =>
          refine ⟨0, ?_⟩
          intro limit
          cases limit <;> simp [runWithin, run_eq m places s, hs]
      | cons position rest =>
          cases hf : follow m places position { s with pending := rest } with
          | error e =>
              refine ⟨1, ?_⟩
              intro limit
              cases limit <;> simp [runWithin, run_eq m places s, hs, hf]
          | ok t =>
              obtain ⟨pops, hpops⟩ := ih t (.follow hs hf)
              refine ⟨pops + 1, ?_⟩
              intro limit
              cases limit <;> simp [runWithin, run_eq m places s, hs, hf, hpops]

end Progress

namespace Method

/-- Analyzes a method as `analyze` does, but gives nothing if more positions than the limit would
have to be popped. -/
def analyzeWithin (limit : Nat) (owner : String) (m : Method) :
    Option (Except AnalysisError Frames) :=
  match m.body.labelPositions with
  | .error cause => some (.error ⟨0, .labels cause⟩)
  | .ok places =>
    match m.entryFrame owner with
    | .error e => some (.error e)
    | .ok entry =>
      if m.body.length = 0 then some (.error ⟨0, .fallOffEnd⟩)
      else (Progress.start m.body.length entry).runWithin m places limit

/-- The analysis of every method pops finitely many positions, and then gives its result. -/
theorem exists_analyzeWithin (owner : String) (m : Method) :
    ∃ pops, ∀ limit,
      m.analyzeWithin limit owner = if pops ≤ limit then some (m.analyze owner) else none := by
  unfold analyzeWithin analyze
  cases m.body.labelPositions with
  | error cause => exact ⟨0, fun limit => by simp⟩
  | ok places =>
      cases m.entryFrame owner with
      | error e => exact ⟨0, fun limit => by simp⟩
      | ok entry =>
          by_cases hempty : m.body.length = 0
          · exact ⟨0, fun limit => by simp [hempty]⟩
          · simp only [hempty, if_false]
            exact Progress.exists_runWithin m places _

end Method

end Resumable
