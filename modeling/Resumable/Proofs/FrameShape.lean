import Mathlib.Logic.Relation
import Resumable.Proofs.Typing

/-!
# The shape of frames

All frames of a method have as many locals as the method, and every wide local is followed by a slot
that holds nothing.  Nothing unknown is on the operand stack, which is no larger than the method
allows, and references are to object and array types.

The save and restore code relies on this for the frames that the analysis finds.  Here it's shown for
all frames that there are while a method is analyzed, also if the analysis fails in the end.  To this
end the analysis is taken apart into moments: a waiting position is popped, the instruction there is
analyzed at a copy of its frame, and what it leaves arrives at one position after the other.
-/

namespace Resumable

/-- What a frame looks like in a method with the given numbers of locals and of slots on the operand
stack. -/
structure Frame.Shaped (maxLocals maxStack : Nat) (f : Frame) : Prop where
  locals : f.locals.length = maxLocals
  wide : ∀ i v, f.locals[i]? = some v → v.isWide → i + 1 < maxLocals ∧ f.locals[i + 1]? = some .top
  known : .top ∉ f.stack
  room : f.stackSlots ≤ maxStack
  references : ∀ t, .reference t ∈ f.locals ++ f.stack → t.isReference

theorem Frame.WellFormed.shaped {maxLocals maxStack : Nat} {f : Frame} (h : f.WellFormed maxLocals)
    (room : f.stackSlots ≤ maxStack) : f.Shaped maxLocals maxStack where
  locals := h.localsLength
  wide i v hv hw := by
    have hnext := h.wide i v hv hw
    exact ⟨h.localsLength ▸ (List.getElem?_eq_some_iff.1 hnext).1, hnext⟩
  known htop := h.known _ htop rfl
  room := room
  references t ht := by
    rcases List.mem_append.1 ht with ht | ht
    · exact h.localsProper _ ht t rfl
    · exact h.stackProper _ ht t rfl

/-- What the analysis is doing. -/
inductive Activity
  /-- A waiting position is about to be popped. -/
  | idle
  /-- The instruction at the position is about to be analyzed at a copy of the frame there. -/
  | analyzing (position : Nat) (working : Frame)
  /-- The frame that the instruction at the position has left is about to arrive at the targets. -/
  | leading (position : Nat) (working : Frame) (targets : List Nat)

/-- The frame that the analysis is working with, besides those at positions. -/
def Activity.working? : Activity → Option Frame
  | idle => none
  | analyzing _ working | leading _ working _ => some working

/-- What's known at a moment of an analysis, and what happens next. -/
structure Moment where
  progress : Progress
  activity : Activity

namespace Moment

/-- True if the analysis has the frame at the moment. -/
inductive Holds (t : Moment) (f : Frame) : Prop
  | known {position : Nat} (here : Frames.at? t.progress.frames position = some f)
  | working (here : t.activity.working? = some f)

/-- The positions at which the frame after an instruction is going to arrive. -/
def targets (places : List (Label × Nat)) (position : Nat) (i : Instruction) : List Nat :=
  Progress.jumps places i ++ if i.fallsThrough then [position + 1] else []

/-- What one moment of an analysis leads to. -/
inductive Step (m : Method) (places : List (Label × Nat)) : Moment → Moment → Prop
  | skip {s : Progress} {position : Nat} {rest : List Nat} (waiting : s.pending = position :: rest)
      (nothing : Frames.at? s.frames position = none) :
      Step m places ⟨s, .idle⟩ ⟨{ s with pending := rest }, .idle⟩
  | pop {s : Progress} {position : Nat} {rest : List Nat} {f : Frame}
      (waiting : s.pending = position :: rest) (here : Frames.at? s.frames position = some f) :
      Step m places ⟨s, .idle⟩ ⟨{ s with pending := rest }, .analyzing position f⟩
  | analyze {s : Progress} {position : Nat} {i : Instruction} {f g : Frame}
      (here : m.body.get? position = some i) (leaves : m.transfer f i = .ok g) :
      Step m places ⟨s, .analyzing position f⟩ ⟨s, .leading position g (targets places position i)⟩
  | arrive {s s' : Progress} {position target : Nat} {rest : List Nat} {g : Frame}
      (inRange : target < s.frames.length)
      (arrives : Progress.flowInto position g s target = .ok s') :
      Step m places ⟨s, .leading position g (target :: rest)⟩ ⟨s', .leading position g rest⟩
  | finish {s : Progress} {position : Nat} {g : Frame} :
      Step m places ⟨s, .leading position g []⟩ ⟨s, .idle⟩

/-- What can be wrong at a moment, where the analysis ends with an error. -/
inductive Fails (m : Method) : Moment → AnalysisError → Prop
  | analyze {s : Progress} {position : Nat} {i : Instruction} {f : Frame} {cause : AnalysisCause}
      (here : m.body.get? position = some i) (wrong : m.transfer f i = .error cause) :
      Fails m ⟨s, .analyzing position f⟩ ⟨position, cause⟩
  | arrive {s : Progress} {position target : Nat} {rest : List Nat} {g : Frame}
      {e : AnalysisError} (inRange : target < s.frames.length)
      (wrong : Progress.flowInto position g s target = .error e) :
      Fails m ⟨s, .leading position g (target :: rest)⟩ e
  | offEnd {s : Progress} {position : Nat} {rest : List Nat} {g : Frame}
      (last : position + 1 = s.frames.length) :
      Fails m ⟨s, .leading position g ((position + 1) :: rest)⟩ ⟨position, .fallOffEnd⟩

/-- The first moments of a method's analysis and all that they lead to. -/
inductive Of (m : Method) (owner : String) (t : Moment) : Prop
  | reached {places : List (Label × Nat)} {entry : Frame}
      (labels : m.body.labelPositions = .ok places) (entered : m.entryFrame owner = .ok entry)
      (nonempty : m.body.length ≠ 0)
      (steps : Relation.ReflTransGen (Step m places)
        ⟨Progress.start m.body.length entry, .idle⟩ t)

variable {m : Method} {owner : String} {places : List (Label × Nat)} {t t' : Moment}

/-- The frames at a moment are well formed, and the operand stack has room for them. -/
structure Regular (m : Method) (t : Moment) : Prop where
  progress : t.progress.Regular m
  working : ∀ f, t.activity.working? = some f →
    f.WellFormed m.maxLocals.toNat ∧ f.stackSlots ≤ m.maxStack.toNat

/-- Each step keeps the frames well formed: it copies a frame, applies a rule or merges frames. -/
theorem Step.regular (h : Step m places t t') (ht : t.Regular m) : t'.Regular m := by
  cases h with
  | skip waiting nothing => exact ⟨ht.progress, ht.working⟩
  | @pop s position rest f waiting here =>
      refine ⟨ht.progress, fun f' hf' => ?_⟩
      obtain rfl : f = f' := Option.some.inj hf'
      exact ht.progress position f here
  | @analyze s position i f g here leaves =>
      refine ⟨ht.progress, fun g' hg' => ?_⟩
      obtain rfl : g = g' := Option.some.inj hg'
      obtain ⟨hwf, hroom⟩ := ht.working f rfl
      exact ⟨(Method.rule_of_transfer leaves).wellFormed hwf, Method.room_of_transfer leaves hroom⟩
  | @arrive s s' position target rest g inRange arrives =>
      obtain ⟨hwf, hroom⟩ := ht.working g rfl
      exact ⟨(Progress.arrived_of_flowInto ht.progress hwf hroom inRange arrives).regular,
        ht.working⟩
  | finish => exact ⟨ht.progress, fun f hf => by cases hf⟩

/-- At the start there's just the frame at the entry. -/
theorem regular_start {entry : Frame} (h : m.entryFrame owner = .ok entry) (length : Nat) :
    Regular m ⟨Progress.start length entry, .idle⟩ where
  progress p f hf := by
    obtain ⟨hwf, hempty⟩ := Method.wellFormed_of_entryFrame h
    cases p with
    | zero =>
        obtain rfl : entry = f := by simpa [Frames.at?, Progress.start] using hf
        exact ⟨hwf, by simp [Frame.stackSlots, hempty]⟩
    | succ p =>
        simp only [Frames.at?, Progress.start, List.getElem?_cons_succ,
          List.getElem?_replicate] at hf
        split at hf <;> cases hf
  working f hf := by cases hf

/-- All frames at all moments of an analysis are well formed. -/
theorem Of.regular (h : Of m owner t) : t.Regular m := by
  obtain ⟨labels, entered, nonempty, steps⟩ := h
  induction steps with
  | refl => exact regular_start entered _
  | tail _ step ih => exact step.regular ih

theorem Regular.shaped {f : Frame} (h : t.Regular m) (hf : t.Holds f) :
    f.Shaped m.maxLocals.toNat m.maxStack.toNat := by
  cases hf with
  | known here =>
      obtain ⟨hwf, hroom⟩ := h.progress _ f here
      exact hwf.shaped hroom
  | working here =>
      obtain ⟨hwf, hroom⟩ := h.working f here
      exact hwf.shaped hroom

/-- True if the outcome comes by steps: either all goes well, or something's wrong at a moment. -/
inductive Runs (m : Method) (places : List (Label × Nat)) (t : Moment) (after : Progress → Moment) :
    Except AnalysisError Progress → Prop
  | ok {s : Progress} (steps : Relation.ReflTransGen (Step m places) t (after s)) :
      Runs m places t after (.ok s)
  | error {e : AnalysisError} {t' : Moment} (steps : Relation.ReflTransGen (Step m places) t t')
      (wrong : t'.Fails m e) : Runs m places t after (.error e)

/-- A step that comes first. -/
theorem Runs.head {after : Progress → Moment} {outcome : Except AnalysisError Progress}
    (first : Step m places t t') (h : Runs m places t' after outcome) :
    Runs m places t after outcome := by
  cases h with
  | ok steps => exact .ok (.head first steps)
  | error steps wrong => exact .error (.head first steps) wrong

/-- A frame arrives at its targets one by one. -/
theorem runs_foldlM {position : Nat} {g : Frame} {s : Progress} {targets : List Nat}
    (ht : ∀ q ∈ targets, q < s.frames.length) (rest : List Nat) :
    Runs m places ⟨s, .leading position g (targets ++ rest)⟩ (⟨·, .leading position g rest⟩)
      (targets.foldlM (Progress.flowInto position g) s) := by
  induction targets generalizing s with
  | nil => exact .ok .refl
  | cons q targets ih =>
      obtain ⟨hq, ht⟩ := List.forall_mem_cons.1 ht
      rw [List.foldlM_cons]
      cases hflow : Progress.flowInto position g s q with
      | error e => exact .error .refl (.arrive hq hflow)
      | ok u =>
          have hlength := Progress.length_flowInto hflow
          exact (ih fun q' hq' => hlength ▸ ht q' hq').head (.arrive hq hflow)

/-- The instruction at a position is analyzed, and what it leaves arrives wherever it may lead. -/
theorem runs_follow {position : Nat} {f : Frame} {s : Progress}
    (hplaces : m.body.labelPositions = .ok places) (hlength : s.frames.length = m.body.length)
    (hf : Frames.at? s.frames position = some f) :
    Runs m places ⟨s, .analyzing position f⟩ (⟨·, .idle⟩)
      (Progress.follow m places position s) := by
  have hposition := Frames.lt_of_at? hf
  obtain ⟨i, hi⟩ := Body.get?_of_lt (hlength ▸ hposition)
  have hjumps : ∀ q ∈ Progress.jumps places i, q < s.frames.length := by
    intro q hq
    obtain ⟨l, -, hl⟩ := (Body.mem_jumps hplaces).1 hq
    rw [hlength]
    exact (List.findIdx?_eq_some_iff_getElem.1 hl).1
  have hf' : s.frames[position]?.join = some f := hf
  simp only [Progress.follow, hf', hi]
  cases htransfer : m.transfer f i with
  | error cause => exact .error .refl (.analyze hi htransfer)
  | ok g =>
      refine .head (.analyze hi htransfer) ?_
      have arriving : Runs m places ⟨s, .leading position g (targets places position i)⟩
          (⟨·, .leading position g (if i.fallsThrough then [position + 1] else [])⟩)
          ((Progress.jumps places i).foldlM (Progress.flowInto position g) s) := runs_foldlM hjumps _
      dsimp only
      cases hu : (Progress.jumps places i).foldlM (Progress.flowInto position g) s with
      | error e =>
          rw [hu] at arriving
          obtain _ | ⟨steps, wrong⟩ := arriving
          exact .error steps wrong
      | ok u =>
          rw [hu] at arriving
          obtain ⟨steps⟩ | _ := arriving
          have hlengthu := Progress.length_foldlM hu
          cases hfalls : i.fallsThrough with
          | false =>
              simp only [hfalls, Bool.false_eq_true, if_false, not_false_eq_true, if_true] at steps ⊢
              exact .ok (steps.tail .finish)
          | true =>
              simp only [hfalls, if_true, not_true_eq_false, if_false] at steps ⊢
              split
              · rename_i hlast
                exact .error steps (.offEnd hlast)
              · have hnext : position + 1 < u.frames.length := by omega
                cases hlast : Progress.flowInto position g u (position + 1) with
                | error e => exact .error steps (.arrive hnext hlast)
                | ok v => exact .ok ((steps.tail (.arrive hnext hlast)).tail .finish)

/-- A waiting position is popped and followed. -/
theorem runs_pop {position : Nat} {rest : List Nat} {s : Progress}
    (hplaces : m.body.labelPositions = .ok places) (hlength : s.frames.length = m.body.length)
    (hs : s.pending = position :: rest) :
    Runs m places ⟨s, .idle⟩ (⟨·, .idle⟩)
      (Progress.follow m places position { s with pending := rest }) := by
  cases hf : Frames.at? s.frames position with
  | none =>
      have hf' : s.frames[position]?.join = none := hf
      simp only [Progress.follow, hf']
      exact .ok (.single (.skip hs hf))
  | some f =>
      have first : Step m places ⟨s, .idle⟩
          ⟨{ s with pending := rest }, .analyzing position f⟩ := .pop hs hf
      exact (runs_follow (s := { s with pending := rest }) hplaces hlength hf).head first

/-- From the first moment on the analysis goes from one to the next, until no position waits or
something's wrong. -/
theorem run_moments {entry : Frame} (hplaces : m.body.labelPositions = .ok places)
    (hentry : m.entryFrame owner = .ok entry) (hne : m.body.length ≠ 0) :
    (∃ frames, (Progress.start m.body.length entry).run m places = .ok frames ∧
      Of m owner ⟨⟨frames, []⟩, .idle⟩) ∨
      ∃ e t, (Progress.start m.body.length entry).run m places = .error e ∧ Of m owner t ∧
        t.Fails m e := by
  let Reached (t : Moment) := Relation.ReflTransGen (Step m places)
    ⟨Progress.start m.body.length entry, .idle⟩ t
  have hof {t : Moment} (steps : Reached t) : Of m owner t := .reached hplaces hentry hne steps
  have hlength : (Progress.start m.body.length entry).frames.length = m.body.length := by
    simp [Progress.start]
    omega
  have hstep (s t : Progress) (position : Nat) (rest : List Nat)
      (hs : s.frames.length = m.body.length ∧ Reached ⟨s, .idle⟩)
      (hp : s.pending = position :: rest)
      (ht : Progress.follow m places position { s with pending := rest } = .ok t) :
      t.frames.length = m.body.length ∧ Reached ⟨t, .idle⟩ := by
    have popped := runs_pop hplaces hs.1 hp
    rw [ht] at popped
    obtain ⟨steps⟩ | _ := popped
    exact ⟨(Progress.length_follow ht).trans hs.1, hs.2.trans steps⟩
  rcases Progress.run_cases ⟨hlength, .refl⟩ hstep with
    ⟨frames, hrun, -, hreached⟩ | ⟨s, position, rest, e, hrun, hs, hp, he⟩
  · exact .inl ⟨frames, hrun, hof hreached⟩
  · have popped := runs_pop hplaces hs.1 hp
    rw [he] at popped
    obtain _ | ⟨steps, wrong⟩ := popped
    exact .inr ⟨e, _, hrun, hof (hs.2.trans steps), wrong⟩

end Moment

namespace Method

/-- The analysis ends with the frames of a moment when no position waits, or with the error of one at
which something's wrong.  If it fails before it starts there are no moments. -/
theorem analyze_moments (owner : String) (m : Method) :
    (∃ frames, m.analyze owner = .ok frames ∧ Moment.Of m owner ⟨⟨frames, []⟩, .idle⟩) ∨
      (∃ e t, m.analyze owner = .error e ∧ Moment.Of m owner t ∧ t.Fails m e) ∨
      (∃ e, m.analyze owner = .error e) ∧ ∀ t, ¬ Moment.Of m owner t := by
  unfold analyze
  cases hplaces : m.body.labelPositions with
  | error cause =>
      refine .inr (.inr ⟨⟨_, rfl⟩, ?_⟩)
      rintro t ⟨labels, -, -, -⟩
      rw [hplaces] at labels
      cases labels
  | ok places =>
      cases hentry : m.entryFrame owner with
      | error e =>
          refine .inr (.inr ⟨⟨_, rfl⟩, ?_⟩)
          rintro t ⟨-, entered, -, -⟩
          rw [hentry] at entered
          cases entered
      | ok entry =>
          by_cases hempty : m.body.length = 0
          · simp only [hempty, if_true]
            exact .inr (.inr ⟨⟨_, rfl⟩, fun t ⟨_, _, nonempty, _⟩ => nonempty hempty⟩)
          · simp only [hempty, if_false]
            rcases Moment.run_moments hplaces hentry hempty with hok | herror
            · exact .inl hok
            · exact .inr (.inl herror)

/-- Whatever frame the analysis of a method has at any moment has the shape of the method's frames,
from the one at the entry to all that it finds.  The moments are those of the analysis: it ends at one
of them, also when it fails, unless it doesn't get to the first. -/
theorem frames_shaped (owner : String) (m : Method) :
    (∀ f, m.entryFrame owner = .ok f → f.Shaped m.maxLocals.toNat m.maxStack.toNat) ∧
      (∀ t f, Moment.Of m owner t → t.Holds f → f.Shaped m.maxLocals.toNat m.maxStack.toNat) ∧
      (∀ frames, m.analyze owner = .ok frames → Moment.Of m owner ⟨⟨frames, []⟩, .idle⟩ ∧
        ∀ p f, frames.at? p = some f → f.Shaped m.maxLocals.toNat m.maxStack.toNat) ∧
      ∀ e, m.analyze owner = .error e →
        (∃ t, Moment.Of m owner t ∧ t.Fails m e) ∨ ∀ t, ¬ Moment.Of m owner t := by
  have hshaped (t : Moment) (f : Frame) (ht : Moment.Of m owner t) (hf : t.Holds f) :
      f.Shaped m.maxLocals.toNat m.maxStack.toNat := ht.regular.shaped hf
  have hentry (f : Frame) (hf : m.entryFrame owner = .ok f) :
      f.Shaped m.maxLocals.toNat m.maxStack.toNat := by
    obtain ⟨hwf, hempty⟩ := wellFormed_of_entryFrame hf
    exact hwf.shaped (by simp [Frame.stackSlots, hempty])
  refine ⟨hentry, hshaped, ?_⟩
  rcases m.analyze_moments owner with
    ⟨found, hfound, hlast⟩ | ⟨e, t, he, ht, hwrong⟩ | ⟨⟨e, he⟩, hnone⟩
  · rw [hfound]
    refine ⟨fun frames hframes => ?_, fun e he => by cases he⟩
    obtain rfl : found = frames := Except.ok.inj hframes
    exact ⟨hlast, fun p f hf => hshaped _ f hlast (.known hf)⟩
  · rw [he]
    refine ⟨fun frames hframes => (by cases hframes), fun e' he' => ?_⟩
    obtain rfl : e = e' := Except.error.inj he'
    exact .inl ⟨t, ht, hwrong⟩
  · rw [he]
    exact ⟨fun frames hframes => (by cases hframes), fun _ _ => .inr hnone⟩

end Method

end Resumable
