import Resumable.Analysis.Rules
import Resumable.Frame.Weight

/-!
# Analysis of methods

Starting from the frame at its entry, the frames of a method flow along all of its paths and merge
where paths join, until nothing changes any more.  The positions whose frames have changed wait on a
stack, so that of several errors the one that's met first on this way is reported.

The analysis ends because every change makes the frames lighter: a position gets its first frame, or
a merge makes its frame lighter.
-/

namespace Resumable

/-- The frames known so far, by position, and the positions whose frames have changed since they
were last followed. -/
structure Progress where
  frames : List (Option Frame)
  pending : List Nat

namespace Progress

/-- Puts a new frame at a position, which has to be followed from there. -/
def update (s : Progress) (position : Nat) (f : Frame) : Progress :=
  { frames := s.frames.set position (some f)
    pending := if position ∈ s.pending then s.pending else position :: s.pending }

/-- Lets a frame arrive at `target` from the instruction at `position`. -/
def flowInto (position : Nat) (f : Frame) (s : Progress) (target : Nat) :
    Except AnalysisError Progress :=
  match s.frames[target]? with
  | none => .ok s
  | some none => .ok (s.update target f)
  | some (some known) =>
    match known.mergeFrom f with
    | .error (.heights expected found) =>
      .error ⟨position, .incompatibleStackHeights expected found⟩
    | .error (.values expected found) =>
      .error ⟨position, .incompatibleStackValues expected found⟩
    | .ok (changed, merged) => .ok (if changed then s.update target merged else s)

/-- A frame that arrives puts a new frame at a position if none is known there yet, or if merging the
known one with it gives another. -/
theorem flowInto_eq (position : Nat) (f : Frame) (s : Progress) (target : Nat) :
    flowInto position f s target =
      match s.frames[target]? with
      | none => .ok s
      | some none => .ok (s.update target f)
      | some (some known) =>
        match known.merge f with
        | .error (.heights expected found) =>
          .error ⟨position, .incompatibleStackHeights expected found⟩
        | .error (.values expected found) =>
          .error ⟨position, .incompatibleStackValues expected found⟩
        | .ok merged => .ok (if merged = known then s else s.update target merged) := by
  unfold flowInto
  split
  · rfl
  · rfl
  · rename_i known hknown
    rw [Frame.mergeFrom_eq]
    cases known.merge f with
    | error e => cases e <;> rfl
    | ok merged => simp [Except.map, ite_not]

/-- The positions of the labels that an instruction may jump to. -/
def jumps (places : List (Label × Nat)) (i : Instruction) : List Nat :=
  i.targets.filterMap fun l => places.lookup l

/-- Lets the frame at a position arrive wherever the instruction there may lead. -/
def follow (m : Method) (places : List (Label × Nat)) (position : Nat) (s : Progress) :
    Except AnalysisError Progress :=
  match s.frames[position]?.join, m.body.get? position with
  | some f, some i =>
    match m.transfer f i with
    | .error cause => .error ⟨position, cause⟩
    | .ok after =>
      match (jumps places i).foldlM (flowInto position after) s with
      | .error e => .error e
      | .ok s =>
        if ¬ i.fallsThrough then .ok s
        else if position + 1 = s.frames.length then .error ⟨position, .fallOffEnd⟩
        else flowInto position after s (position + 1)
  | _, _ => .ok s

/-- The number of positions without a frame. -/
def unseen (frames : List (Option Frame)) : Nat := frames.countP Option.isNone

/-- The weight of all frames together. -/
def weight (frames : List (Option Frame)) : Weight :=
  (frames.map fun f => (f.map Frame.weight).getD ⟨0, 0⟩).foldr Weight.add ⟨0, 0⟩

/-- True if the first frames are further on than the second ones: more positions have a frame, or
as many have one and the frames are lighter. -/
def Further (after before : List (Option Frame)) : Prop :=
  unseen after < unseen before ∨
    unseen after = unseen before ∧ (weight after).Lighter (weight before)

theorem Further.trans {a b c : List (Option Frame)} (h : Further a b) (k : Further b c) :
    Further a c := by
  rcases h with h | ⟨h, h'⟩ <;> rcases k with k | ⟨k, k'⟩
  · exact .inl (by omega)
  · exact .inl (by omega)
  · exact .inl (by omega)
  · exact .inr ⟨by omega, h'.trans k'⟩

/-- A first frame at a position is a step further. -/
theorem further_of_first {frames : List (Option Frame)} {target : Nat}
    (h : frames[target]? = some none) (f : Frame) :
    Further (frames.set target (some f)) frames := by
  left
  induction frames generalizing target with
  | nil => simp at h
  | cons g frames ih =>
    cases target with
    | zero => simp_all [unseen]
    | succ target =>
      have := @ih target (by simpa using h)
      simp only [unseen, List.set_cons_succ, List.countP_cons] at *
      omega

/-- A lighter frame at a position is a step further. -/
theorem further_of_lighter {frames : List (Option Frame)} {target : Nat} {known merged : Frame}
    (h : frames[target]? = some (some known)) (hl : merged.weight.Lighter known.weight) :
    Further (frames.set target (some merged)) frames := by
  right
  induction frames generalizing target with
  | nil => simp at h
  | cons g frames ih =>
    cases target with
    | zero =>
      obtain rfl : g = some known := by simpa using h
      exact ⟨by simp [unseen], by simpa [weight] using hl.add_right _⟩
    | succ target =>
      have := @ih target (by simpa using h)
      refine ⟨?_, ?_⟩
      · have := this.1
        simp only [unseen, List.set_cons_succ, List.countP_cons] at *
        omega
      · simpa [weight] using this.2.add_left _

/-- True if the second state is the first one or further on. -/
def Advanced (before after : Progress) : Prop :=
  after = before ∨ Further after.frames before.frames

theorem Advanced.trans {a b c : Progress} (h : Advanced a b) (k : Advanced b c) : Advanced a c := by
  rcases h with rfl | h
  · exact k
  · rcases k with rfl | k
    · exact .inr h
    · exact .inr (k.trans h)

theorem advanced_of_flowInto {position target : Nat} {f : Frame} {s t : Progress}
    (h : flowInto position f s target = .ok t) : Advanced s t := by
  rw [flowInto_eq] at h
  split at h
  · cases h
    exact .inl rfl
  · rename_i hnone
    cases h
    exact .inr (further_of_first hnone f)
  · rename_i known hknown
    split at h
    · cases h
    · cases h
    · rename_i merged hmerged
      cases h
      split
      · exact .inl rfl
      · rename_i hne
        exact .inr (further_of_lighter hknown (Frame.lighter_of_merge hmerged hne))

theorem advanced_of_foldlM {position : Nat} {f : Frame} {targets : List Nat} {s t : Progress}
    (h : targets.foldlM (flowInto position f) s = .ok t) : Advanced s t := by
  induction targets generalizing s with
  | nil =>
    cases h
    exact .inl rfl
  | cons target targets ih =>
    rw [List.foldlM_cons] at h
    cases hs : flowInto position f s target with
    | error e => rw [hs] at h; cases h
    | ok u =>
      rw [hs] at h
      exact (advanced_of_flowInto hs).trans (ih h)

theorem advanced_of_follow {m : Method} {places : List (Label × Nat)} {position : Nat}
    {s t : Progress} (h : follow m places position s = .ok t) : Advanced s t := by
  unfold follow at h
  split at h
  · split at h
    · cases h
    · split at h
      · cases h
      · rename_i hs
        refine (advanced_of_foldlM hs).trans ?_
        split at h
        · cases h
          exact .inl rfl
        · split at h
          · cases h
          · exact advanced_of_flowInto h
  · cases h
    exact .inl rfl

/-- What's left to do: the positions without a frame, the nulls, the heights and the waiting
positions, compared in this order. -/
def remaining (s : Progress) : Nat × Nat × Nat × Nat :=
  (unseen s.frames, (weight s.frames).nulls, (weight s.frames).heights, s.pending.length)

/-- Less is left to do once a waiting position is followed. -/
theorem remaining_of_follow {m : Method} {places : List (Label × Nat)} {position : Nat}
    {rest : List Nat} {s t : Progress} (hs : s.pending = position :: rest)
    (h : follow m places position { s with pending := rest } = .ok t) :
    WellFoundedRelation.rel t.remaining s.remaining := by
  unfold remaining
  rcases advanced_of_follow h with rfl | h
  · simp only [hs, List.length_cons]
    exact Prod.Lex.right _ (Prod.Lex.right _ (Prod.Lex.right _ (Nat.lt_succ_self _)))
  · rcases h with h | ⟨h, h' | ⟨h', h''⟩⟩
    · exact Prod.Lex.left _ _ h
    · rw [h]
      exact Prod.Lex.right _ (Prod.Lex.left _ _ h')
    · rw [h, h']
      exact Prod.Lex.right _ (Prod.Lex.right _ (Prod.Lex.left _ _ h''))

/-- Follows the waiting positions, the last one first, until none is left. -/
def run (m : Method) (places : List (Label × Nat)) (s : Progress) :
    Except AnalysisError (List (Option Frame)) :=
  match _hp : s.pending with
  | [] => .ok s.frames
  | position :: rest =>
    match _hf : follow m places position { s with pending := rest } with
    | .error e => .error e
    | .ok t => run m places t
termination_by s.remaining
decreasing_by exact remaining_of_follow _hp _hf

/-- Nothing is known but the frame at the first of `length` positions. -/
def start (length : Nat) (entry : Frame) : Progress :=
  { frames := some entry :: List.replicate (length - 1) none
    pending := [0] }

end Progress

/-- The frames of a method, by position; there's none where execution can't get to. -/
abbrev Frames := List (Option Frame)

namespace Method

/-- The locals that a call fills, before they're filled up to their number.  The second slot of a
wide parameter holds nothing of its own. -/
def entryLocals (owner : String) (m : Method) : List FrameValue :=
  let receiver := if m.isStatic then [] else [FrameValue.reference (.object owner)]
  receiver ++ m.type.params.flatMap fun type =>
    let v := FrameValue.ofType type
    if v.isWide then [v, .top] else [v]

/-- The frame at a method's entry. -/
def entryFrame (owner : String) (m : Method) : Except AnalysisError Frame :=
  let locals := entryLocals owner m
  let maxLocals := m.maxLocals.toNat
  if maxLocals < locals.length then .error ⟨0, .tooManyParameters locals.length maxLocals⟩
  else .ok ⟨locals ++ List.replicate (maxLocals - locals.length) .top, []⟩

/-- The frame at each instruction of a method that the unit `owner` declares. -/
def analyze (owner : String) (m : Method) : Except AnalysisError Frames :=
  match m.body.labelPositions with
  | .error cause => .error ⟨0, .labels cause⟩
  | .ok places =>
    match m.entryFrame owner with
    | .error e => .error e
    | .ok entry =>
      if m.body.length = 0 then .error ⟨0, .fallOffEnd⟩
      else (Progress.start m.body.length entry).run m places

end Method

end Resumable
