import Resumable.Analysis.StackMap
import Resumable.Proofs.FrameOrder

/-!
# What the analysis finds

A typing gives a frame to positions of a body such that what the rules make of the frame at a
position is below the frames of all positions to which execution may go on.  The frames that the
analysis finds are a typing, and they are below every other typing.  So a method that has a typing
passes analysis unless its operand stack overflows.
-/

namespace Resumable

/-- The frame at a position. -/
def Frames.at? (frames : Frames) (position : Nat) : Option Frame := frames[position]?.join

theorem Frames.lt_of_at? {frames : Frames} {p : Nat} {f : Frame} (h : frames.at? p = some f) :
    p < frames.length := by
  simp only [at?] at h
  cases hp : frames[p]? with
  | none => simp [hp] at h
  | some g => exact (List.getElem?_eq_some_iff.1 hp).1

/-- True if the position has a frame above the given one. -/
def Frames.Admits (frames : Frames) (position : Nat) (f : Frame) : Prop :=
  ∃ g, frames.at? position = some g ∧ f.Below g

namespace Body

/-- True if execution may go on at the second position after the instruction at the first one. -/
inductive Leads (b : Body) : Nat → Nat → Prop
  | jump {p q : Nat} {i : Instruction} {l : Label} (here : b.get? p = some i)
      (target : l ∈ i.targets) (placed : b.position? l = some q) : Leads b p q
  | next {p : Nat} {i : Instruction} (here : b.get? p = some i) (falls : i.fallsThrough) :
      Leads b p (p + 1)

/-- True if execution may get to the position. -/
inductive Reaches (b : Body) : Nat → Prop
  | entry : Reaches b 0
  | step {p q : Nat} : Reaches b p → Leads b p q → Reaches b q

variable {b : Body}

theorem get?_of_lt {p : Nat} (h : p < b.length) : ∃ i, b.get? p = some i :=
  ⟨b.instructions[p], List.getElem?_eq_getElem h⟩

theorem lt_of_get? {p : Nat} {i : Instruction} (h : b.get? p = some i) : p < b.length :=
  (List.getElem?_eq_some_iff.1 h).1

theorem lookup_placesFrom (n : Nat) (is : List Instruction) (l : Label) :
    (placesFrom n is).lookup l =
      (is.findIdx? fun i => i.placed? = some l).map (n + ·) := by
  induction is generalizing n with
  | nil => rfl
  | cons i is ih =>
      cases i with
      | label k =>
          by_cases hk : k = l
          · subst hk
            simp [placesFrom, Instruction.placed?, List.findIdx?_cons]
          · have hlk : (l == k) = false := by simpa using fun h => hk h.symm
            simp only [placesFrom, List.lookup_cons, hlk, ih, List.findIdx?_cons,
              Instruction.placed?, Option.some.injEq, hk, decide_false]
            cases is.findIdx? _ <;> simp [Nat.add_comm, Nat.add_left_comm]
      | _ =>
          simp only [placesFrom, ih, List.findIdx?_cons, Instruction.placed?, reduceCtorEq,
            decide_false]
          cases is.findIdx? _ <;> simp [Nat.add_comm, Nat.add_left_comm]

theorem lookup_labelPositions {places : List (Label × Nat)} (h : b.labelPositions = .ok places)
    (l : Label) : places.lookup l = b.position? l := by
  simp only [labelPositions] at h
  split at h
  · cases h
  · split at h
    · cases h
    · cases h
      simp [lookup_placesFrom, position?]

/-- Every label that an instruction may jump to is placed. -/
theorem position?_of_mem_targets {places : List (Label × Nat)} (h : b.labelPositions = .ok places)
    {p : Nat} {i : Instruction} {l : Label} (hi : b.get? p = some i) (hl : l ∈ i.targets) :
    ∃ q, b.position? l = some q := by
  rw [← lookup_labelPositions h]
  simp only [labelPositions] at h
  split at h
  · cases h
  · split at h
    · cases h
    · rename_i hfind
      cases h
      have hplaced := List.find?_eq_none.1 hfind l
        (List.mem_flatMap.2 ⟨i, List.mem_of_getElem? hi, hl⟩)
      obtain ⟨q, hq⟩ : ∃ q, (l, q) ∈ placesFrom 0 b.instructions := by simpa using hplaced
      cases hlookup : (placesFrom 0 b.instructions).lookup l with
      | some q => exact ⟨q, rfl⟩
      | none =>
          rw [List.lookup_eq_none_iff] at hlookup
          simpa using hlookup _ hq

theorem mem_jumps {places : List (Label × Nat)} (h : b.labelPositions = .ok places)
    {i : Instruction} {q : Nat} :
    q ∈ Progress.jumps places i ↔ ∃ l ∈ i.targets, b.position? l = some q := by
  simp [Progress.jumps, lookup_labelPositions h]

/-- Where an instruction may lead: to its jumps, and on unless it doesn't fall through. -/
theorem leads_iff {places : List (Label × Nat)} (h : b.labelPositions = .ok places) {p q : Nat}
    {i : Instruction} (hi : b.get? p = some i) :
    b.Leads p q ↔ q ∈ Progress.jumps places i ∨ i.fallsThrough ∧ q = p + 1 := by
  rw [mem_jumps h]
  constructor
  · rintro (⟨here, target, placed⟩ | ⟨here, falls⟩)
    · obtain rfl : i = _ := Option.some.inj (hi.symm.trans here)
      exact .inl ⟨_, target, placed⟩
    · obtain rfl : i = _ := Option.some.inj (hi.symm.trans here)
      exact .inr ⟨falls, rfl⟩
  · rintro (⟨l, target, placed⟩ | ⟨falls, rfl⟩)
    · exact .jump hi target placed
    · exact .next hi falls

end Body

namespace Progress

variable {m : Method} {places : List (Label × Nat)} {s t u : Progress}

theorem run_of_follow {position : Nat} {rest : List Nat} (hs : s.pending = position :: rest)
    (h : follow m places position { s with pending := rest } = .ok t) :
    s.run m places = t.run m places := by
  rw [run]
  split
  · rename_i hnone
    rw [hs] at hnone
    cases hnone
  · rename_i position' rest' hsome
    rw [hs] at hsome
    cases hsome
    split
    · rename_i e he
      rw [h] at he
      cases he
    · rename_i u hu
      rw [h] at hu
      cases hu
      rfl

/-- What holds at the start and is kept by following a waiting position holds at the end, and where
following a position fails. -/
theorem run_cases {motive : Progress → Prop} (h : motive s)
    (step : ∀ s t position rest, motive s → s.pending = position :: rest →
      follow m places position { s with pending := rest } = .ok t → motive t) :
    (∃ frames, s.run m places = .ok frames ∧ motive ⟨frames, []⟩) ∨
      ∃ s' position rest e, s.run m places = .error e ∧ motive s' ∧
        s'.pending = position :: rest ∧
        follow m places position { s' with pending := rest } = .error e := by
  fun_induction run m places s with
  | case1 s hp =>
      obtain ⟨frames, pending⟩ := s
      obtain rfl : pending = [] := hp
      exact .inl ⟨frames, rfl, h⟩
  | case2 s position rest hp e hf => exact .inr ⟨s, position, rest, e, rfl, h, hp, hf⟩
  | case3 s position rest hp t hf ih => exact ih (step s t position rest h hp hf)

/-- The second state knows at least as much as the first one, and every position whose frame has
changed is waiting. -/
structure Grown (s t : Progress) : Prop where
  length : t.frames.length = s.frames.length
  admits : ∀ p f, Frames.Admits s.frames p f → Frames.Admits t.frames p f
  pending : ∀ p ∈ s.pending, p ∈ t.pending
  unchanged : ∀ p, p ∉ t.pending → Frames.at? t.frames p = Frames.at? s.frames p

theorem Grown.refl (s : Progress) : s.Grown s := ⟨rfl, fun _ _ h => h, fun _ h => h, fun _ _ => rfl⟩

theorem Grown.trans (h : s.Grown t) (k : t.Grown u) : s.Grown u where
  length := k.length.trans h.length
  admits p f hf := k.admits p f (h.admits p f hf)
  pending p hp := k.pending p (h.pending p hp)
  unchanged p hp := (k.unchanged p hp).trans (h.unchanged p fun ht => hp (k.pending p ht))

theorem length_flowInto {position q : Nat} {f : Frame} (h : flowInto position f s q = .ok t) :
    t.frames.length = s.frames.length := by
  rw [flowInto_eq] at h
  split at h
  · cases h
    rfl
  · cases h
    simp [update]
  · split at h
    · cases h
    · cases h
    · cases h
      split <;> simp [update]

theorem length_foldlM {position : Nat} {f : Frame} {targets : List Nat}
    (h : targets.foldlM (flowInto position f) s = .ok t) : t.frames.length = s.frames.length := by
  induction targets generalizing s with
  | nil =>
      cases h
      rfl
  | cons q targets ih =>
      obtain ⟨u, hu, h⟩ := Except.bind_eq_ok.1 h
      exact (ih h).trans (length_flowInto hu)

theorem length_follow {position : Nat} (h : follow m places position s = .ok t) :
    t.frames.length = s.frames.length := by
  simp only [follow] at h
  split at h
  · split at h
    · cases h
    · split at h
      · cases h
      · rename_i u hu
        rw [← length_foldlM hu]
        split at h
        · cases h
          rfl
        · split at h
          · cases h
          · exact length_flowInto h
  · cases h
    rfl

theorem at?_update (s : Progress) {p q : Nat} (hq : q < s.frames.length) (f : Frame) :
    Frames.at? (s.update q f).frames p = if p = q then some f else Frames.at? s.frames p := by
  simp only [Frames.at?, update, List.getElem?_set]
  grind

theorem mem_pending_update (s : Progress) (p q : Nat) (f : Frame) :
    p ∈ (s.update q f).pending ↔ p = q ∨ p ∈ s.pending := by
  simp only [update]
  split <;> simp_all

/-- A greater frame at a position makes the state grow. -/
theorem grown_update {q : Nat} {f : Frame} (hq : q < s.frames.length)
    (hf : ∀ g, Frames.at? s.frames q = some g → g.Below f) : s.Grown (s.update q f) where
  length := by simp [update]
  admits p g := by
    rintro ⟨g', hg', hgg'⟩
    by_cases hp : p = q
    · subst hp
      exact ⟨f, by simp [at?_update s hq], hgg'.trans (hf g' hg')⟩
    · exact ⟨g', by simp [at?_update s hq, hp, hg'], hgg'⟩
  pending p hp := (mem_pending_update s p q f).2 (.inr hp)
  unchanged p hp := by
    rw [at?_update s hq, if_neg fun h => hp ((mem_pending_update s p q f).2 (.inl h))]

/-- The frames known are well formed, and the operand stack has room for them. -/
def Regular (m : Method) (s : Progress) : Prop :=
  ∀ p f, Frames.at? s.frames p = some f →
    f.WellFormed m.maxLocals.toNat ∧ f.stackSlots ≤ m.maxStack.toNat

/-- What has come of letting a frame arrive at some positions. -/
structure Arrived (m : Method) (f : Frame) (targets : List Nat) (s t : Progress) : Prop where
  grown : s.Grown t
  regular : t.Regular m
  admits : ∀ q ∈ targets, Frames.Admits t.frames q f
  origin : ∀ p g, Frames.at? t.frames p = some g → (Frames.at? s.frames p).isSome ∨ p ∈ targets

theorem arrived_of_flowInto {position q : Nat} {f : Frame} (hs : s.Regular m)
    (hf : f.WellFormed m.maxLocals.toNat) (room : f.stackSlots ≤ m.maxStack.toNat)
    (hq : q < s.frames.length) (h : flowInto position f s q = .ok t) : Arrived m f [q] s t := by
  have update_regular {g : Frame} (hg : g.WellFormed m.maxLocals.toNat)
      (hroom : g.stackSlots ≤ m.maxStack.toNat) : (s.update q g).Regular m := by
    intro p f' hf'
    rw [at?_update s hq] at hf'
    split at hf'
    · cases hf'
      exact ⟨hg, hroom⟩
    · exact hs p f' hf'
  have update_origin {g g' : Frame} {p : Nat} (hg' : Frames.at? (s.update q g).frames p = some g') :
      (Frames.at? s.frames p).isSome ∨ p ∈ [q] := by
    rw [at?_update s hq] at hg'
    split at hg'
    · rename_i hp
      exact .inr (by simp [hp])
    · exact .inl (by simp [hg'])
  rw [flowInto_eq] at h
  split at h
  · rename_i hnone
    exact absurd hq (Nat.not_lt.2 (List.getElem?_eq_none_iff.1 hnone))
  · rename_i hnone
    cases h
    have hat : Frames.at? s.frames q = none := by simp [Frames.at?, hnone]
    refine ⟨grown_update hq (by simp [hat]), update_regular hf room, ?_, fun p g => update_origin⟩
    simp only [List.mem_singleton, forall_eq]
    exact ⟨f, by simp [at?_update s hq], .refl hf⟩
  · rename_i known hknown
    have hat : Frames.at? s.frames q = some known := by simp [Frames.at?, hknown]
    have hkf := (hs q known hat).1
    split at h
    · cases h
    · cases h
    · rename_i merged hmerged
      have hleft := Frame.below_merge_left hkf hf hmerged
      have hright := Frame.below_merge_right hkf hf hmerged
      have hwf := Frame.wellFormed_of_merge hkf hf hmerged
      cases h
      split
      · rename_i heq
        refine ⟨.refl s, hs, ?_, fun p g hg => .inl (by simp [hg])⟩
        simp only [List.mem_singleton, forall_eq]
        exact ⟨known, hat, heq ▸ hright⟩
      · refine ⟨grown_update hq ?_, update_regular hwf ?_, ?_, fun p g => update_origin⟩
        · intro g hg
          obtain rfl : known = g := Option.some.inj (hat.symm.trans hg)
          exact hleft
        · rw [← hright.stackSlots hwf.known]
          exact room
        · simp only [List.mem_singleton, forall_eq]
          exact ⟨merged, by simp [at?_update s hq], hright⟩

theorem Arrived.append {f : Frame} {targets targets' : List Nat} (h : Arrived m f targets s t)
    (k : Arrived m f targets' t u) : Arrived m f (targets ++ targets') s u where
  grown := h.grown.trans k.grown
  regular := k.regular
  admits q hq := by
    rcases List.mem_append.1 hq with hq | hq
    · exact k.grown.admits _ _ (h.admits q hq)
    · exact k.admits q hq
  origin p g hg := by
    rcases k.origin p g hg with hp | hp
    · obtain ⟨g', hg'⟩ := Option.isSome_iff_exists.1 hp
      exact (h.origin p g' hg').imp_right (List.mem_append_left _)
    · exact .inr (List.mem_append_right _ hp)

theorem arrived_of_foldlM {position : Nat} {f : Frame} {targets : List Nat} (hs : s.Regular m)
    (hf : f.WellFormed m.maxLocals.toNat) (room : f.stackSlots ≤ m.maxStack.toNat)
    (ht : ∀ q ∈ targets, q < s.frames.length)
    (h : targets.foldlM (flowInto position f) s = .ok t) : Arrived m f targets s t := by
  induction targets generalizing s with
  | nil =>
      cases h
      exact ⟨.refl _, hs, by simp, fun p g hg => .inl (by simp [hg])⟩
  | cons q targets ih =>
      rw [List.foldlM_cons, Except.bind_eq_ok] at h
      obtain ⟨u, hu, h⟩ := h
      rw [List.forall_mem_cons] at ht
      have first := arrived_of_flowInto hs hf room ht.1 hu
      have rest := ih first.regular (fun q' hq' => first.grown.length ▸ ht.2 q' hq') h
      exact first.append rest

/-- What has come of following a position: the frame after the instruction has arrived wherever
execution may go on. -/
theorem arrived_of_follow {p : Nat} {f : Frame} {i : Instruction}
    (hplaces : m.body.labelPositions = .ok places) (hlength : s.frames.length = m.body.length)
    (hs : s.Regular m) (hf : Frames.at? s.frames p = some f) (hi : m.body.get? p = some i)
    (h : follow m places p s = .ok t) :
    ∃ g targets, m.transfer f i = .ok g ∧ (∀ q, q ∈ targets ↔ m.body.Leads p q) ∧
      Arrived m g targets s t := by
  have hf' : s.frames[p]?.join = some f := hf
  simp only [follow, hf', hi] at h
  split at h
  · cases h
  · rename_i g hg
    obtain ⟨hfw, hroom⟩ := hs p f hf
    have hgw := (Method.rule_of_transfer hg).wellFormed hfw
    have hgroom := Method.room_of_transfer hg hroom
    have hjumps : ∀ q ∈ jumps places i, q < s.frames.length := by
      intro q hq
      obtain ⟨l, -, hl⟩ := (Body.mem_jumps hplaces).1 hq
      rw [hlength]
      exact (List.findIdx?_eq_some_iff_getElem.1 hl).1
    split at h
    · cases h
    · rename_i u hu
      have first := arrived_of_foldlM hs hgw hgroom hjumps hu
      split at h
      · rename_i hfalls
        cases h
        refine ⟨g, jumps places i, hg, fun q => ?_, first⟩
        rw [Body.leads_iff hplaces hi]
        simp [hfalls]
      · rename_i hfalls
        split at h
        · cases h
        · rename_i hne
          have hp := Frames.lt_of_at? hf
          have hlast : p + 1 < u.frames.length := by
            have := first.grown.length
            omega
          refine ⟨g, jumps places i ++ [p + 1], hg, fun q => ?_,
            first.append (arrived_of_flowInto first.regular hgw hgroom hlast h)⟩
          rw [Body.leads_iff hplaces hi]
          simp at hfalls
          simp [hfalls]

/-- True if what the instruction at a position makes of a frame has arrived wherever execution may
go on. -/
def Stable (m : Method) (frames : Frames) (p : Nat) (f : Frame) : Prop :=
  ∃ i g, m.body.get? p = some i ∧ m.transfer f i = .ok g ∧
    ∀ q, m.body.Leads p q → frames.Admits q g

/-- The invariant of the analysis. -/
structure Sound (m : Method) (entry : Frame) (s : Progress) : Prop where
  length : s.frames.length = m.body.length
  regular : s.Regular m
  entry : Frames.Admits s.frames 0 entry
  reached : ∀ p f, Frames.at? s.frames p = some f → m.body.Reaches p
  stable : ∀ p f, Frames.at? s.frames p = some f → p ∉ s.pending → Stable m s.frames p f

theorem Stable.mono {frames frames' : Frames} {p : Nat} {f : Frame} (h : Stable m frames p f)
    (hf : ∀ q g, frames.Admits q g → frames'.Admits q g) : Stable m frames' p f := by
  obtain ⟨i, g, hi, hg, ht⟩ := h
  exact ⟨i, g, hi, hg, fun q hq => hf q g (ht q hq)⟩

/-- Following a waiting position keeps the invariant. -/
theorem Sound.follow {entry : Frame} {position : Nat} {rest : List Nat}
    (hplaces : m.body.labelPositions = .ok places) (hs : Sound m entry s)
    (hp : s.pending = position :: rest)
    (h : Progress.follow m places position { s with pending := rest } = .ok t) :
    Sound m entry t := by
  cases hf : Frames.at? s.frames position with
  | none =>
      have hf' : s.frames[position]?.join = none := hf
      simp only [Progress.follow, hf'] at h
      cases h
      refine ⟨hs.length, hs.regular, hs.entry, hs.reached, fun p f hpf hrest => ?_⟩
      refine hs.stable p f hpf fun hmem => ?_
      rw [hp] at hmem
      rcases List.mem_cons.1 hmem with rfl | hmem
      · rw [hf] at hpf
        cases hpf
      · exact hrest hmem
  | some f =>
      obtain ⟨i, hi⟩ := Body.get?_of_lt (hs.length ▸ Frames.lt_of_at? hf)
      obtain ⟨g, targets, hg, htargets, arrived⟩ :=
        arrived_of_follow (s := { s with pending := rest }) hplaces hs.length hs.regular hf hi h
      refine ⟨arrived.grown.length.trans hs.length, arrived.regular,
        arrived.grown.admits _ _ hs.entry, ?_, ?_⟩
      · intro p f' hf'
        rcases arrived.origin p f' hf' with hold | hnew
        · obtain ⟨f₀, hf₀⟩ := Option.isSome_iff_exists.1 hold
          exact hs.reached p f₀ hf₀
        · exact .step (hs.reached position f hf) ((htargets p).1 hnew)
      · intro p f' hf' hwait
        have hsame := arrived.grown.unchanged p hwait
        rw [hf'] at hsame
        by_cases hpp : p = position
        · -- The position just followed: its own frame hasn't changed on the way.
          subst hpp
          obtain rfl : f' = f := Option.some.inj (hsame.trans hf)
          exact ⟨i, g, hi, hg, fun q hq => arrived.admits q ((htargets q).2 hq)⟩
        · refine (hs.stable p f' hsame.symm fun hmem => ?_).mono arrived.grown.admits
          rw [hp] at hmem
          have hrest : p ∈ rest := (List.mem_cons.1 hmem).resolve_left hpp
          exact hwait (arrived.grown.pending p hrest)

end Progress

namespace Method

variable {m : Method} {owner : String} {frames : Frames}

/-- What a call fills depends on the method's type and on whether it's static. -/
theorem entryLocals_congr {m' : Method} (htype : m'.type = m.type) (hstatic : m'.isStatic = m.isStatic)
    (owner : String) : m'.entryLocals owner = m.entryLocals owner := by
  simp only [entryLocals, hstatic, htype]

/-- The frame at a method's entry is well formed. -/
theorem wellFormed_of_entryFrame {entry : Frame} (h : m.entryFrame owner = .ok entry) :
    entry.WellFormed m.maxLocals.toNat ∧ entry.stack = [] := by
  have hpaired : Frame.Paired (m.entryLocals owner) := by
    refine Frame.Paired.append (Frame.paired_of_narrow fun v hv => ?_) ?_
    · split at hv <;> simp_all [FrameValue.isWide]
    · generalize m.type.params = params
      induction params with
      | nil => exact Frame.paired_of_narrow (by simp)
      | cons t params ih =>
          refine Frame.Paired.append ?_ ih
          intro i v hv hw
          dsimp only at hv ⊢
          grind [FrameValue.isWide]
  have hproper : ∀ v ∈ m.entryLocals owner, v.IsProper := by
    intro v hv
    simp only [entryLocals, List.mem_append, List.mem_flatMap] at hv
    rcases hv with hv | ⟨t, -, hv⟩
    · split at hv <;> simp_all [FrameValue.IsProper, ValueType.isReference]
    · split at hv <;> simp only [List.mem_cons, List.not_mem_nil, or_false] at hv
      · rcases hv with rfl | rfl
        · exact FrameValue.isProper_ofType t
        · simp [FrameValue.IsProper]
      · exact hv ▸ FrameValue.isProper_ofType t
  simp only [entryFrame] at h
  split at h
  · cases h
  · rename_i hlength
    cases h
    refine ⟨⟨by simp; omega, ?_, by simp, ?_, by simp⟩, rfl⟩
    · refine hpaired.append (Frame.paired_of_narrow fun v hv => ?_)
      simp [(List.mem_replicate.1 hv).2, FrameValue.isWide]
    · intro v hv
      rcases List.mem_append.1 hv with hv | hv
      · exact hproper v hv
      · simp [(List.mem_replicate.1 hv).2, FrameValue.IsProper]

/-- What's known of the frames that the analysis finds. -/
structure Analyzed (m : Method) (owner : String) (frames : Frames) : Prop where
  labels : ∃ places, m.body.labelPositions = .ok places
  entry : ∃ entry, m.entryFrame owner = .ok entry ∧ frames.Admits 0 entry
  length : frames.length = m.body.length
  wellFormed : ∀ p f, frames.at? p = some f → f.WellFormed m.maxLocals.toNat
  room : ∀ p f, frames.at? p = some f → f.stackSlots ≤ m.maxStack.toNat
  reached : ∀ p f, frames.at? p = some f → m.body.Reaches p
  stable : ∀ p f, frames.at? p = some f → Progress.Stable m frames p f

theorem analyzed_of_analyze (h : m.analyze owner = .ok frames) : m.Analyzed owner frames := by
  simp only [analyze] at h
  split at h
  · cases h
  · rename_i places hplaces
    split at h
    · cases h
    · rename_i entry hentry
      split at h
      · cases h
      · rename_i hne
        obtain ⟨hwf, hempty⟩ := wellFormed_of_entryFrame hentry
        have hstart (p : Nat) : Frames.at? (Progress.start m.body.length entry).frames p =
            if p = 0 then some entry else none := by
          cases p with
          | zero => rfl
          | succ p =>
              simp only [Frames.at?, Progress.start, List.getElem?_cons_succ,
                List.getElem?_replicate]
              split <;> rfl
        have sound : Progress.Sound m entry (Progress.start m.body.length entry) := by
          refine ⟨?_, ?_, ⟨entry, hstart 0, .refl hwf⟩, ?_, ?_⟩
          · simp [Progress.start]
            omega
          · intro p f hf
            rw [hstart] at hf
            split at hf
            · cases hf
              exact ⟨hwf, by simp [Frame.stackSlots, hempty]⟩
            · cases hf
          · intro p f hf
            rw [hstart] at hf
            split at hf
            · rename_i hp
              exact hp ▸ .entry
            · cases hf
          · intro p f hf hp
            rw [hstart, if_neg (by simpa [Progress.start] using hp)] at hf
            cases hf
        rcases Progress.run_cases sound
          (fun s t position rest hs hp hf => hs.follow hplaces hp hf) with
          ⟨found, hrun, hs⟩ | ⟨s, position, rest, e, hrun, -⟩
        · rw [hrun] at h
          cases h
          exact ⟨⟨places, hplaces⟩, ⟨entry, hentry, hs.entry⟩, hs.length,
            fun p f hf => (hs.regular p f hf).1, fun p f hf => (hs.regular p f hf).2,
            hs.reached, fun p f hf => hs.stable p f hf (by simp)⟩
        · rw [hrun] at h
          cases h

theorem Analyzed.length_ne_zero (h : m.Analyzed owner frames) : m.body.length ≠ 0 := by
  obtain ⟨-, -, f, hf, -⟩ := h.entry
  have := Frames.lt_of_at? hf
  have := h.length
  omega

/-- The positions with a frame are those that execution may get to. -/
theorem Analyzed.reaches_iff (h : m.Analyzed owner frames) (p : Nat) :
    (∃ f, frames.at? p = some f) ↔ m.body.Reaches p := by
  constructor
  · rintro ⟨f, hf⟩
    exact h.reached p f hf
  · intro hp
    induction hp with
    | entry =>
        obtain ⟨entry, -, f, hf, -⟩ := h.entry
        exact ⟨f, hf⟩
    | step hp hq ih =>
        obtain ⟨f, hf⟩ := ih
        obtain ⟨i, g, hi, hg, ht⟩ := h.stable _ f hf
        obtain ⟨f', hf', -⟩ := ht _ hq
        exact ⟨f', hf'⟩

/-- Frames at positions of a method that agree with its rules, whatever room there is on the operand
stack. -/
structure Typing (m : Method) (owner : String) (frames : Nat → Option Frame) : Prop where
  entry : ∃ entry f, m.entryFrame owner = .ok entry ∧ frames 0 = some f ∧ entry.Below f
  inRange : ∀ p f, frames p = some f → p < m.body.length
  known : ∀ p f, frames p = some f → ∀ v ∈ f.stack, v ≠ .top
  step : ∀ p f i, frames p = some f → m.body.get? p = some i →
    ∃ g, m.Rule f i g ∧ ∀ q, m.body.Leads p q → ∃ f', frames q = some f' ∧ g.Below f'

/-- What the analysis finds is a typing. -/
theorem Analyzed.typing (h : m.Analyzed owner frames) : m.Typing owner frames.at? where
  entry := by
    obtain ⟨entry, hentry, f, hf, hbelow⟩ := h.entry
    exact ⟨entry, f, hentry, hf, hbelow⟩
  inRange p f hf := h.length ▸ Frames.lt_of_at? hf
  known p f hf := (h.wellFormed p f hf).known
  step p f i hf hi := by
    obtain ⟨j, g, hj, hg, ht⟩ := h.stable p f hf
    obtain rfl : i = j := Option.some.inj (hi.symm.trans hj)
    exact ⟨g, rule_of_transfer hg, ht⟩

end Method

namespace Progress

variable {m : Method} {owner : String} {places : List (Label × Nat)} {s t : Progress}
  {typing : Nat → Option Frame}

/-- True if all frames known so far are below those of the typing. -/
def Under (typing : Nat → Option Frame) (frames : Frames) : Prop :=
  ∀ p f, frames.at? p = some f → ∃ g, typing p = some g ∧ f.Below g

theorem under_update {q : Nat} {f g : Frame} (hs : Under typing s.frames)
    (hq : q < s.frames.length) (hg : typing q = some g) (hf : f.Below g) :
    Under typing (s.update q f).frames := by
  intro p f' hf'
  rw [at?_update s hq] at hf'
  split at hf'
  · rename_i hp
    cases hf'
    exact ⟨g, hp ▸ hg, hf⟩
  · exact hs p f' hf'

/-- A frame below the typing's can arrive, and all frames stay below the typing. -/
theorem under_of_flowInto (position : Nat) {q : Nat} {f g : Frame} (hs : Under typing s.frames)
    (hg : typing q = some g) (hf : f.Below g) (known : ∀ v ∈ g.stack, v ≠ .top) :
    ∃ t, flowInto position f s q = .ok t ∧ Under typing t.frames := by
  rw [flowInto_eq]
  split
  · exact ⟨s, rfl, hs⟩
  · rename_i hnone
    exact ⟨_, rfl, under_update hs (List.getElem?_eq_some_iff.1 hnone).1 hg hf⟩
  · rename_i before hbefore
    obtain ⟨g', hg', hbelow⟩ := hs q before (by simp [Frames.at?, hbefore])
    obtain rfl : g = g' := Option.some.inj (hg.symm.trans hg')
    obtain ⟨merged, hmerged, hmb⟩ := hbelow.merge hf known
    rw [hmerged]
    refine ⟨_, rfl, ?_⟩
    split
    · exact hs
    · exact under_update hs (List.getElem?_eq_some_iff.1 hbefore).1 hg hmb

theorem under_of_foldlM (position : Nat) {f : Frame} {targets : List Nat}
    (hs : Under typing s.frames)
    (ht : ∀ q ∈ targets, ∃ g, typing q = some g ∧ f.Below g ∧ ∀ v ∈ g.stack, v ≠ .top) :
    ∃ t, targets.foldlM (flowInto position f) s = .ok t ∧ Under typing t.frames := by
  induction targets generalizing s with
  | nil => exact ⟨s, rfl, hs⟩
  | cons q targets ih =>
      rw [List.forall_mem_cons] at ht
      obtain ⟨⟨g, hg, hf, known⟩, ht⟩ := ht
      obtain ⟨u, hu, hus⟩ := under_of_flowInto position hs hg hf known
      rw [List.foldlM_cons, hu]
      exact ih hus ht

/-- True if what the instruction at some position makes of the typing's frame has no room. -/
def Overflows (m : Method) (typing : Nat → Option Frame) : Prop :=
  ∃ p f i g, typing p = some f ∧ m.body.get? p = some i ∧ m.Rule f i g ∧
    (∀ q, m.body.Leads p q → ∃ f', typing q = some f' ∧ g.Below f') ∧
    m.maxStack.toNat < g.stackSlots

/-- Below a typing nothing goes wrong but that the operand stack overflows. -/
theorem follow_of_under (position : Nat) (htyping : m.Typing owner typing)
    (hplaces : m.body.labelPositions = .ok places) (hlength : s.frames.length = m.body.length)
    (hs : Under typing s.frames) :
    (∃ t, follow m places position s = .ok t ∧ Under typing t.frames) ∨
      follow m places position s = .error ⟨position, .stackOverflow m.maxStack.toNat⟩ ∧
        Overflows m typing := by
  cases hf : Frames.at? s.frames position with
  | none =>
      have hf' : s.frames[position]?.join = none := hf
      simp only [follow, hf']
      exact .inl ⟨s, rfl, hs⟩
  | some f =>
      obtain ⟨i, hi⟩ := Body.get?_of_lt (hlength ▸ Frames.lt_of_at? hf)
      obtain ⟨f₂, hf₂, hbelow⟩ := hs position f hf
      obtain ⟨g₂, hrule₂, hleads⟩ := htyping.step position f₂ i hf₂ hi
      have hknown := htyping.known position f₂ hf₂
      obtain ⟨g, hrule, hg⟩ := hrule₂.mono hbelow hknown
      have arrives (q : Nat) (hq : m.body.Leads position q) :
          ∃ f', typing q = some f' ∧ g.Below f' ∧ ∀ v ∈ f'.stack, v ≠ .top := by
        obtain ⟨f', hf', hbelow'⟩ := hleads q hq
        exact ⟨f', hf', hg.trans hbelow', htyping.known q f' hf'⟩
      have hf' : s.frames[position]?.join = some f := hf
      rcases Method.transfer_of_rule hrule with ⟨htransfer, -⟩ | ⟨htransfer, hroom⟩
      · left
        simp only [follow, hf', hi, htransfer]
        obtain ⟨u, hu, hus⟩ := under_of_foldlM position hs fun q hq =>
          arrives q ((Body.leads_iff hplaces hi).2 (.inl hq))
        rw [hu]
        by_cases hfalls : i.fallsThrough
        · obtain ⟨f₃, hf₃, hbelow₃, known₃⟩ := arrives _ (.next hi hfalls)
          have hlast : position + 1 ≠ u.frames.length := by
            have := htyping.inRange _ f₃ hf₃
            rw [length_foldlM hu, hlength]
            omega
          simp only [hfalls, not_true, if_false, hlast]
          exact under_of_flowInto position hus hf₃ hbelow₃ known₃
        · simp only [hfalls]
          exact ⟨u, rfl, hus⟩
      · right
        simp only [follow, hf', hi, htransfer]
        refine ⟨trivial, position, f₂, i, g₂, hf₂, hi, hrule₂, hleads, ?_⟩
        rw [← hg.stackSlots (hrule₂.known hknown)]
        exact hroom

end Progress

namespace Method

variable {m : Method} {owner : String} {frames : Frames} {typing : Nat → Option Frame}

/-- A method that has a typing passes analysis, which finds frames below the typing, unless the
operand stack overflows. -/
theorem Typing.analyze_cases (h : m.Typing owner typing)
    (hlabels : ∃ places, m.body.labelPositions = .ok places) :
    (∃ frames, m.analyze owner = .ok frames ∧ Progress.Under typing frames) ∨
      (∃ position, m.analyze owner = .error ⟨position, .stackOverflow m.maxStack.toNat⟩) ∧
        Progress.Overflows m typing := by
  obtain ⟨places, hplaces⟩ := hlabels
  obtain ⟨entry, f, hentry, hf, hbelow⟩ := h.entry
  have hne : m.body.length ≠ 0 := by
    have := h.inRange 0 f hf
    omega
  have hstart : Progress.Under typing (Progress.start m.body.length entry).frames := by
    intro p g hg
    cases p with
    | zero =>
        obtain rfl : entry = g := by simpa [Frames.at?, Progress.start] using hg
        exact ⟨f, hf, hbelow⟩
    | succ p =>
        simp only [Frames.at?, Progress.start, List.getElem?_cons_succ,
          List.getElem?_replicate] at hg
        split at hg <;> cases hg
  have hlength : (Progress.start m.body.length entry).frames.length = m.body.length := by
    simp [Progress.start]
    omega
  simp only [analyze, hplaces, hentry, hne, if_false]
  have hstep (s t : Progress) (position : Nat) (rest : List Nat)
      (hs : s.frames.length = m.body.length ∧ Progress.Under typing s.frames)
      (_ : s.pending = position :: rest)
      (ht : Progress.follow m places position { s with pending := rest } = .ok t) :
      t.frames.length = m.body.length ∧ Progress.Under typing t.frames := by
    rcases Progress.follow_of_under (s := { s with pending := rest }) position h hplaces hs.1 hs.2
      with ⟨t', ht', hunder⟩ | ⟨he, -⟩
    · obtain rfl : t' = t := Except.ok.inj (ht'.symm.trans ht)
      exact ⟨(Progress.length_follow ht).trans hs.1, hunder⟩
    · rw [he] at ht
      cases ht
  rcases Progress.run_cases ⟨hlength, hstart⟩ hstep with
    ⟨frames, hrun, -, hunder⟩ | ⟨s, position, rest, e, hrun, ⟨hl, hs⟩, -, he⟩
  · exact .inl ⟨frames, hrun, hunder⟩
  · rcases Progress.follow_of_under (s := { s with pending := rest }) position h hplaces hl hs
      with ⟨t, ht, -⟩ | ⟨he', hover⟩
    · rw [ht] at he
      cases he
    · rw [he'] at he
      cases he
      exact .inr ⟨⟨position, hrun⟩, hover⟩

end Method

end Resumable
