import Resumable.Proofs.Labels
import Resumable.Proofs.Snapshots

/-!
# Typing code piece by piece

A piece of code fits between the frame before it and the frame after it if its instructions have
frames between which the rules lead, given the frames at all labels.  Pieces that fit are put
together, and a body that fits as a whole is typed.
-/

namespace Resumable

/-- The frames that are known at the labels of a body. -/
abbrev LabelFrames := Label → Option Frame

namespace Method

/-- True if the instruction may stand between the frames.  Where there's no frame before it,
execution doesn't get to it. -/
structure Allows (m : Method) (labels : LabelFrames) (before : Option Frame) (i : Instruction)
    (after : Option Frame) : Prop where
  label : ∀ l, i = .label l → labels l = before
  known : ∀ f, before = some f → ∀ v ∈ f.stack, v ≠ .top
  step : ∀ f, before = some f → ∃ g, m.Rule f i g ∧
    (i.fallsThrough → ∃ f', after = some f' ∧ g.Below f') ∧
      ∀ l ∈ i.targets, ∃ f', labels l = some f' ∧ g.Below f'

/-- True if the code, with the given frames before its instructions, fits between the frames before
and after it. -/
inductive Fits (m : Method) (labels : LabelFrames) :
    Option Frame → List Instruction → Frames → Option Frame → Prop
  | nil (f : Option Frame) : Fits m labels f [] [] f
  | cons {f g h : Option Frame} {i : Instruction} {code : List Instruction} {frames : Frames}
      (head : m.Allows labels f i g) (tail : Fits m labels g code frames h) :
      Fits m labels f (i :: code) (f :: frames) h

namespace Fits

variable {m : Method} {labels : LabelFrames} {f g h : Option Frame} {i : Instruction}
  {code rest : List Instruction} {fs gs : Frames}

theorem single (head : m.Allows labels f i g) : m.Fits labels f [i] [f] g := .cons head (.nil g)

theorem append (hc : m.Fits labels f code fs g) (hd : m.Fits labels g rest gs h) :
    m.Fits labels f (code ++ rest) (fs ++ gs) h := by
  induction hc with
  | nil => exact hd
  | cons head _ ih => exact .cons head (ih hd)

theorem length_eq (hc : m.Fits labels f code fs g) : fs.length = code.length := by
  induction hc with
  | nil => rfl
  | cons _ _ ih => simp [ih]

/-- The frame at the start of code that isn't empty is the one before it. -/
theorem at?_zero (hc : m.Fits labels f code fs g) (hne : code ≠ []) : fs.at? 0 = f := by
  cases hc with
  | nil => exact absurd rfl hne
  | cons _ _ => simp [Frames.at?]

/-- What stands at a position is allowed between its frame and the next one. -/
theorem allows (hc : m.Fits labels f code fs g) {k : Nat} (hk : code[k]? = some i) :
    m.Allows labels (fs.at? k) i (if k + 1 < code.length then fs.at? (k + 1) else g) := by
  induction hc generalizing k with
  | nil => simp at hk
  | @cons f g h j code frames head tail ih =>
      cases k with
      | zero =>
          obtain rfl : j = i := by simpa using hk
          cases code with
          | nil =>
              cases tail
              simpa [Frames.at?] using head
          | cons j' code =>
              have hnext := at?_zero tail (by simp)
              simp only [Frames.at?] at hnext
              simpa [Frames.at?, hnext] using head
      | succ k =>
          have := ih (by simpa using hk)
          simpa [Frames.at?] using this

/-- Code that leads to a frame also leads to the frames above it. -/
theorem above {f₁ f₂ : Frame} (hc : m.Fits labels f code fs (some f₁)) (hne : code ≠ [])
    (habove : f₁.Below f₂) : m.Fits labels f code fs (some f₂) := by
  generalize hg : some f₁ = g at hc
  induction hc with
  | nil => exact absurd rfl hne
  | cons head tail ih =>
      cases tail with
      | nil =>
          subst hg
          refine .single ⟨head.label, head.known, fun f hf => ?_⟩
          obtain ⟨g, hrule, hfalls, htargets⟩ := head.step f hf
          refine ⟨g, hrule, fun hft => ?_, htargets⟩
          obtain ⟨f', hf', hbelow⟩ := hfalls hft
          cases hf'
          exact ⟨f₂, rfl, hbelow.trans habove⟩
      | cons head' tail' => exact .cons head (ih (by simp) hg)

end Fits

variable {m : Method} {owner : String} {labels : LabelFrames} {f g : Frame}

/-- Code to which execution doesn't get may be whatever it is. -/
theorem Allows.unreached {i : Instruction} {after : Option Frame}
    (hlabel : ∀ l, i = .label l → labels l = none) : m.Allows labels none i after :=
  ⟨hlabel, by simp, by simp⟩

/-- A place that's marked. -/
theorem Allows.marked {l : Label} {f' : Frame} (hlabel : labels l = some f)
    (known : ∀ v ∈ f.stack, v ≠ .top) (hbelow : f.Below f') :
    m.Allows labels (some f) (.label l) (some f') where
  label l' h := by
    cases h
    exact hlabel
  known g hg := by
    cases hg
    exact known
  step g hg := by
    cases hg
    refine ⟨f, Rule.noOperands rfl rfl, fun _ => ⟨f', rfl, hbelow⟩, ?_⟩
    simp [Instruction.targets]

/-- An instruction that doesn't mark a place and just leads on. -/
theorem Allows.plain {i : Instruction} (hi : i.isPlain) (rule : m.Rule f i g)
    (hf : f.WellFormed m.maxLocals.toNat) : m.Allows labels (some f) i (some g) where
  label l hl := by
    rw [hl] at hi
    cases hi
  known f' hf' := by
    cases hf'
    exact hf.known
  step f' hf' := by
    cases hf'
    refine ⟨g, rule, fun _ => ⟨g, rfl, .refl (rule.wellFormed hf)⟩, ?_⟩
    simp [(Instruction.isPlain_iff.1 hi).2.1]

/-- An instruction that only jumps, or leaves the method. -/
theorem Allows.away {i : Instruction} {after : Option Frame} (hi : i.placed? = none)
    (hfalls : i.fallsThrough = false) (rule : m.Rule f i g) (known : ∀ v ∈ f.stack, v ≠ .top)
    (htargets : ∀ l ∈ i.targets, ∃ f', labels l = some f' ∧ g.Below f') :
    m.Allows labels (some f) i after where
  label l hl := by
    rw [hl] at hi
    cases hi
  known f' hf' := by
    cases hf'
    exact known
  step f' hf' := by
    cases hf'
    refine ⟨g, rule, fun h => ?_, htargets⟩
    rw [hfalls] at h
    cases h

theorem Steps.wellFormed {code : List Instruction} (h : m.Steps f code g)
    (hf : f.WellFormed m.maxLocals.toNat) : g.WellFormed m.maxLocals.toNat := by
  induction h with
  | nil => exact hf
  | cons rule _ ih => exact ih (rule.wellFormed hf)

/-- Straight code fits between the frames before and after it. -/
theorem Steps.fits (labels : LabelFrames) {code : List Instruction} (h : m.Steps f code g)
    (hplain : Plain code) (hf : f.WellFormed m.maxLocals.toNat) :
    ∃ fs, m.Fits labels (some f) code fs (some g) := by
  induction h with
  | nil f => exact ⟨[], .nil _⟩
  | cons rule _ ih =>
      rw [plain_cons] at hplain
      obtain ⟨fs, hfs⟩ := ih hplain.2 (rule.wellFormed hf)
      exact ⟨_, .cons (.plain hplain.1 rule hf) hfs⟩

/-- A body that fits between a frame above the one at its entry and its end is typed. -/
theorem Fits.typing {fs : Frames} {start : Option Frame} {entry f : Frame}
    (h : m.Fits labels start m.body.instructions fs none) (hne : m.body.length ≠ 0)
    (hentry : m.entryFrame owner = .ok entry) (hstart : start = some f) (hbelow : entry.Below f) :
    m.Typing owner fs.at? where
  entry := by
    refine ⟨entry, f, hentry, ?_, hbelow⟩
    rw [h.at?_zero fun hnil => hne (by simp [Body.length, hnil]), hstart]
  inRange p f hf := by
    have := Frames.lt_of_at? hf
    rwa [h.length_eq] at this
  known p f hf := by
    have hp : p < m.body.instructions.length := h.length_eq ▸ Frames.lt_of_at? hf
    exact (h.allows (List.getElem?_eq_getElem hp)).known f hf
  step p f i hf hi := by
    obtain ⟨g, hrule, hfalls, htargets⟩ := (h.allows hi).step f hf
    refine ⟨g, hrule, fun q hq => ?_⟩
    rcases hq with ⟨here, target, placed⟩ | ⟨here, falls⟩
    · obtain rfl : i = _ := Option.some.inj (hi.symm.trans here)
      obtain ⟨f', hf', hgf'⟩ := htargets _ target
      refine ⟨f', ?_, hgf'⟩
      rw [← (h.allows (Body.get?_of_position? placed)).label _ rfl, hf']
    · obtain rfl : i = _ := Option.some.inj (hi.symm.trans here)
      obtain ⟨f', hf', hgf'⟩ := hfalls falls
      refine ⟨f', ?_, hgf'⟩
      split at hf'
      · exact hf'
      · cases hf'

end Method

end Resumable
