import Resumable.Proofs.InPlace
import Resumable.Proofs.Loading
import Resumable.Proofs.Reverification

/-!
# Methods and their resumable forms

A machine with instrumented units has the resumable forms of some of the methods that a machine with
the original units has, and the other ones as they are.  The resumable form of a method has a block
for each of its instructions, and a label is where its block is.
-/

namespace Resumable

namespace AccessFlags

theorem contains_union_self (f g : AccessFlags) : (f.union g).contains g := by
  have hbits : (f.bits ||| g.bits) &&& g.bits = g.bits := by
    apply UInt16.toBitVec_inj.1
    ext k hk
    simp only [UInt16.toBitVec_and, UInt16.toBitVec_or, BitVec.getElem_and, BitVec.getElem_or]
    cases f.bits.toBitVec[k] <;> cases g.bits.toBitVec[k] <;> rfl
  simp only [contains, union, hbits, decide_true]

/-- A flag that isn't added is there if it was there before. -/
theorem contains_union {f g h : AccessFlags} (hgh : g.bits &&& h.bits = 0) :
    (f.union g).contains h = f.contains h := by
  have hbits : (f.bits ||| g.bits) &&& h.bits = f.bits &&& h.bits := by
    apply UInt16.toBitVec_inj.1
    ext k hk
    have := congrArg (fun b : UInt16 => b.toBitVec[k]) hgh
    simp only [UInt16.toBitVec_and, UInt16.toBitVec_or, BitVec.getElem_and,
      BitVec.getElem_or] at this ⊢
    cases hg : g.bits.toBitVec[k] with
    | false => simp
    | true =>
        rw [hg] at this
        have hh : h.bits.toBitVec[k] = false := by simpa using this
        simp [hh]
  simp only [contains, union, hbits]

end AccessFlags

theorem UnitFlags.isInstrumented_union (f : UnitFlags) : (f.union .instrumented).isInstrumented := by
  have hbits : (f.bits ||| instrumented.bits) &&& instrumented.bits = instrumented.bits := by
    apply UInt8.toBitVec_inj.1
    ext k hk
    simp only [UInt8.toBitVec_and, UInt8.toBitVec_or, BitVec.getElem_and, BitVec.getElem_or]
    cases f.bits.toBitVec[k] <;> cases instrumented.bits.toBitVec[k] <;> rfl
  simp only [isInstrumented, contains, union, hbits, decide_true]

/-- What an attempt makes of the members of a list. -/
theorem Except.mapM_eq_ok {ε α β : Type} {f : α → Except ε β} {l : List α} {l' : List β} :
    l.mapM f = .ok l' ↔ List.Forall₂ (fun b a => f a = .ok b) l' l := by
  constructor
  · intro h
    induction l generalizing l' with
    | nil =>
        cases h
        exact .nil
    | cons a l ih =>
        rw [List.mapM_cons] at h
        obtain ⟨b, hb, h⟩ := Except.bind_eq_ok.1 h
        obtain ⟨rest, hrest, h⟩ := Except.bind_eq_ok.1 h
        cases h
        exact .cons hb (ih hrest)
  · intro h
    induction h with
    | nil => rfl
    | cons hb _ ih => rw [List.mapM_cons, hb, Except.ok_bind, ih, Except.ok_bind]; rfl

/-- True if the second method runs the code that's made of the first one, for which the analysis has
the given frames. -/
structure Method.Woven (owner : String) (frames : Frames) (d d' : Method) : Prop where
  analyze : d.analyze owner = .ok frames
  type : d'.type = d.type
  isStatic : d'.isStatic = d.isStatic
  body : d'.body = (d.weave frames).body
  maxLocals : d'.maxLocals.toNat = d.maxLocals.toNat + 4
  room : d.maxLocals.toNat + 4 ≤ 65535
  nodup : (Body.placed d'.body.instructions).Nodup

/-- True if the second method is the resumable form of the first one, for which the analysis has the
given frames. -/
structure Method.Resumes (owner : String) (frames : Frames) (d d' : Method) : Prop
    extends d.Woven owner frames d' where
  eligible : d.type.isEligible
  hasBody : d.hasBody
  plain : d.access.isInstrumented = false
  name : d'.name = d.name
  hasBody' : d'.hasBody
  marked : d'.access.isInstrumented

namespace Method

variable {owner : String} {frames : Frames} {d d' : Method}

/-- What instrumentation makes of a method. -/
theorem transform_eq_ok {t : Method} (h : d.transform owner = .ok t) :
    ∃ frames, d.analyze owner = .ok frames ∧
      d.maxLocals.toNat + SlotTable.extraSlots ≤ maxSlots ∧
      (d.weave frames).recompute owner = .ok t := by
  simp only [transform, Except.bind_eq_ok] at h
  obtain ⟨_, -, h⟩ := h
  cases hframes : d.analyze owner with
  | error cause =>
      rw [hframes] at h
      cases h
  | ok frames =>
      rw [hframes] at h
      dsimp only at h
      by_cases hroom : maxSlots < d.maxLocals.toNat + SlotTable.extraSlots
      · rw [if_pos hroom] at h
        cases h
      · rw [if_neg hroom] at h
        exact ⟨frames, rfl, Nat.not_lt.1 hroom, h⟩

theorem access_of_transform {t : Method} (h : d.transform owner = .ok t) :
    t.access = d.access ∧ t.name = d.name := by
  obtain ⟨frames, -, -, hrecompute⟩ := transform_eq_ok h
  obtain ⟨frames', -, rfl⟩ := recompute_eq_ok hrecompute
  exact ⟨rfl, rfl⟩

/-- A transformed method runs the code that's made of the original one, whatever else it's flagged
as. -/
theorem woven_of_transform {t : Method} (h : d.transform owner = .ok t) {access : AccessFlags}
    (hstatic : access.isStatic = d.access.isStatic) :
    ∃ frames, d.Woven owner frames { t with access } := by
  obtain ⟨frames, hframes, hroom, hrecompute⟩ := transform_eq_ok h
  obtain ⟨frames', hagain, rfl⟩ := recompute_eq_ok hrecompute
  have hplaced := (Body.labelPositions_eq_ok.1 (analyzed_of_analyze hagain).labels).1
  exact ⟨frames, hframes, rfl, hstatic, rfl, (widens_weave frames hroom).maxLocals, hroom, hplaced⟩

/-- A method is left as it is, or becomes resumable. -/
theorem instrument_eq_ok (h : d.instrument owner = .ok d') :
    (d.needsInstrumentation = false ∧ d' = d) ∨
      d.needsInstrumentation ∧ ∃ frames, d.Resumes owner frames d' := by
  simp only [instrument] at h
  split at h
  · rename_i hneeds'
    have hneeds := hneeds'
    simp only [needsInstrumentation, Bool.and_eq_true, Bool.not_eq_true'] at hneeds
    obtain ⟨t, ht, h⟩ := Except.bind_eq_ok.1 h
    cases h
    have haccess := access_of_transform ht
    have hbits {f : AccessFlags} (h : AccessFlags.instrumented.bits &&& f.bits = 0) :
        (t.access.union .instrumented).contains f = d.access.contains f := by
      rw [AccessFlags.contains_union h, haccess.1]
    obtain ⟨frames, hwoven⟩ := woven_of_transform ht (hbits (by decide))
    refine .inr ⟨hneeds', frames, hwoven, hneeds.1.1, hneeds.1.2, hneeds.2, haccess.2, ?_,
      AccessFlags.contains_union_self _ _⟩
    have hbody : d.hasBody := hneeds.1.2
    simp only [hasBody, AccessFlags.hasNoBody, Bool.not_eq_true', Bool.or_eq_false_iff] at hbody ⊢
    exact ⟨(hbits (by decide)).trans hbody.1, (hbits (by decide)).trans hbody.2⟩
  · rename_i hneeds
    cases h
    exact .inl ⟨by simpa using hneeds, rfl⟩

/-- What is known of a site that's found: it's a point at the position, of the kind of the
instruction there. -/
theorem of_site? {d : Method} {frames : Frames} {p : Nat} {point : ContinuationPoint}
    {proceed : Label} {g : Frame} {i : Instruction}
    (h : d.site? frames p = some (point, proceed)) (hg : frames.at? p = some g)
    (hi : d.body.get? p = some i) :
    point ∈ d.points frames ∧ point.position = p ∧ point.frame = g ∧
      point.returns = d.type.returns ∧ match point.kind with
        | .suspend => i.isSuspend
        | .save => i.isSave := by
  obtain ⟨hmem, rfl⟩ := site?_eq_some.1 h
  have hpoint := mem_points_of_mem_sites hmem
  obtain ⟨hframe, hreturns, j, hj, hkind⟩ := of_mem_points hpoint
  obtain rfl : i = j := Option.some.inj (hi.symm.trans hj)
  exact ⟨hpoint, rfl, Option.some.inj (hframe.symm.trans hg), hreturns, hkind⟩

namespace Woven

variable {p q : Nat} {i : Instruction}

theorem analyzed (h : d.Woven owner frames d') : d.Analyzed owner frames :=
  analyzed_of_analyze h.analyze

theorem length_ne_zero (h : d.Woven owner frames d') : d.body.length ≠ 0 :=
  h.analyzed.length_ne_zero

/-- The slots of instrumentation code come right after the method's own ones. -/
theorem follows (h : d.Woven owner frames d') : d.slotTable.Follows d' d.maxLocals.toNat := by
  have hw : d'.Widens d := ⟨by rw [h.type], h.maxLocals⟩
  have hlength : (List.replicate d.maxLocals.toNat FrameValue.top).length = d.maxLocals.toNat := by
    simp
  exact hlength ▸ hw.follows h.room hlength

theorem hasAt_prologue (h : d.Woven owner frames d') :
    d'.body.HasAt 0 (d.prologue frames) := by
  rw [h.body]
  exact Method.hasAt_prologue frames h.length_ne_zero

theorem hasAt_block (h : d.Woven owner frames d') (hi : d.body.get? p = some i) :
    d'.body.HasAt (d.blockStart frames p) (d.block frames p i) := by
  rw [h.body]
  exact Method.hasAt_block frames hi

section Site

variable {point : ContinuationPoint} {proceed : Label}

theorem hasAt_saveBlock (h : d.Woven owner frames d') (hi : d.body.get? p = some i)
    (hsite : d.site? frames p = some (point, proceed)) (hsave : point.kind = .save) :
    d'.body.HasAt (d.blockStart frames p) (point.saveBlock d.slotTable) := by
  have hat := h.hasAt_block hi
  rw [block_of_save hsite hsave] at hat
  exact hat.left

theorem hasAt_afterSave (h : d.Woven owner frames d') (hi : d.body.get? p = some i)
    (hsite : d.site? frames p = some (point, proceed)) (hsave : point.kind = .save) :
    d'.body.HasAt (d.newPosition frames p + 1) (point.afterSave d.slotTable proceed) := by
  have hat := h.hasAt_block hi
  rw [block_of_save hsite hsave] at hat
  rw [newPosition_of_save hsite hsave]
  exact hat.right.tail

theorem hasAt_suspendBlock (h : d.Woven owner frames d') (hi : d.body.get? p = some i)
    (hsite : d.site? frames p = some (point, proceed)) (hsuspend : point.kind = .suspend) :
    d'.body.HasAt (d.blockStart frames p) (point.suspendBlock d.slotTable) := by
  have hat := h.hasAt_block hi
  rwa [block_of_suspend hsite hsuspend] at hat

end Site

/-- A label is where its block is. -/
theorem position? (h : d.Woven owner frames d') {l : Label} (hl : d.body.position? l = some q) :
    d'.body.position? l = some (d.blockStart frames q) := by
  have hlabel := Body.get?_of_position? hl
  have hat := h.hasAt_block hlabel
  rw [block_label hlabel] at hat
  exact Body.position?_of_get? h.nodup hat.head

end Woven

end Method

namespace CompiledUnit

/-- True if the unit is the other one, instrumented or as it is. -/
def MadeFrom (u u₀ : CompiledUnit) : Prop :=
  u = u₀ ∨ ∃ settings n, u₀.instrument settings = .ok (n, u)

/-- True if there's nothing to do to the unit, or nothing is asked for. -/
def StaysSame (settings : InstrumentSettings) (u : CompiledUnit) : Prop :=
  (u.flags.isInstrumented ∧ settings.reinstrument = false) ∨
    ∀ m ∈ u.methods, m.needsInstrumentation = false

/-- A unit stays as it is, or each of its methods becomes resumable that isn't yet. -/
theorem instrument_cases {settings : InstrumentSettings} {u u₀ : CompiledUnit} {n : Nat}
    (h : u₀.instrument settings = .ok (n, u)) : (n = 0 ∧ u = u₀ ∧ u₀.StaysSame settings) ∨
      n ≠ 0 ∧ u.name = u₀.name ∧ u.flags.isInstrumented ∧
        List.Forall₂ (fun d' d => d.instrument u₀.name = .ok d') u.methods u₀.methods := by
  rw [instrument_eq] at h
  split at h
  · rename_i hflags
    cases h
    exact .inl ⟨rfl, rfl, .inl (by simpa using hflags)⟩
  · obtain ⟨methods, hmethods, h⟩ := Except.bind_eq_ok.1 h
    split at h
    · rename_i hcount
      cases h
      exact .inl ⟨rfl, rfl, .inr (by simpa [List.countP_eq_zero] using hcount)⟩
    · rename_i hcount
      cases h
      exact .inr ⟨hcount, rfl, UnitFlags.isInstrumented_union _, Except.mapM_eq_ok.1 hmethods⟩

/-- Instrumenting a unit makes each of its methods resumable that isn't yet. -/
theorem forall₂_methods {u u₀ : CompiledUnit} (h : u.MadeFrom u₀) :
    u.name = u₀.name ∧ List.Forall₂ (fun d' d => d' = d ∨ d.instrument u₀.name = .ok d')
      u.methods u₀.methods := by
  have same : List.Forall₂ (fun d' d => d' = d ∨ d.instrument u₀.name = .ok d')
      u₀.methods u₀.methods := List.forall₂_same.2 fun _ _ => .inl rfl
  rcases h with rfl | ⟨settings, n, h⟩
  · exact ⟨rfl, same⟩
  · rcases instrument_cases h with ⟨-, rfl, -⟩ | ⟨-, hname, -, hmethods⟩
    · exact ⟨rfl, same⟩
    · exact ⟨hname, hmethods.imp fun _ _ h => .inr h⟩

end CompiledUnit

/-- What's found first in two lists with members that belong together belongs together. -/
theorem rel_find? {α β : Type} {R : α → β → Prop} {p : α → Bool} {q : β → Bool} {l : List α}
    {l' : List β} (h : List.Forall₂ R l l') (hpq : ∀ a b, R a b → p a = q b) :
    Option.Rel R (l.find? p) (l'.find? q) := by
  induction h with
  | nil => exact .none
  | @cons a b l l' hab _ ih =>
      rw [List.find?_cons, List.find?_cons, hpq a b hab]
      cases q b with
      | true => exact .some hab
      | false => exact ih

/-- True if the first machine has the units of the second one, some of them instrumented.  The
methods of the second machine aren't resumable yet. -/
structure Machine.MadeFrom (m m₀ : Machine) : Prop where
  limits : m.limits = m₀.limits
  natives : m.natives = m₀.natives
  units : List.Forall₂ CompiledUnit.MadeFrom m.units m₀.units
  plain : ∀ u ∈ m₀.units, ∀ d ∈ u.methods, d.access.isInstrumented = false

/-- True if the first method is the second one, which isn't resumable, or its resumable form. -/
def Method.Counterpart (owner : String) (d' d : Method) : Prop :=
  (d' = d ∧ d.access.isInstrumented = false) ∨ ∃ frames, d.Resumes owner frames d'

theorem Method.Counterpart.isStatic {owner : String} {d d' : Method} (h : d'.Counterpart owner d) :
    d'.isStatic = d.isStatic := by
  rcases h with ⟨rfl, -⟩ | ⟨frames, resumes⟩
  · rfl
  · exact resumes.isStatic

/-- What's resumable is the resumable form. -/
theorem Method.Counterpart.resumes {owner : String} {d d' : Method} (h : d'.Counterpart owner d)
    (hmarked : d'.access.isInstrumented) : ∃ frames, d.Resumes owner frames d' := by
  rcases h with ⟨rfl, hplain⟩ | h
  · rw [hplain] at hmarked
    cases hmarked
  · exact h

namespace Machine.MadeFrom

variable {m m₀ : Machine} {method : MethodRef} {u u₀ : CompiledUnit}

/-- The methods of units that belong together belong together. -/
theorem forall₂_counterpart (h : m.MadeFrom m₀) (hu₀ : u₀ ∈ m₀.units) (hmade : u.MadeFrom u₀) :
    List.Forall₂ (Method.Counterpart u₀.name) u.methods u₀.methods := by
  have hplain := h.plain u₀ hu₀
  have hmethods := (CompiledUnit.forall₂_methods hmade).2
  generalize u.methods = ds' at hmethods
  generalize u₀.methods = ds at hplain hmethods
  induction hmethods with
  | nil => exact .nil
  | cons hd _ ih =>
      rw [List.forall_mem_cons] at hplain
      refine .cons ?_ (ih hplain.2)
      rcases hd with rfl | hd
      · exact .inl ⟨rfl, hplain.1⟩
      · exact (Method.instrument_eq_ok hd).imp (fun h => ⟨h.2, hplain.1⟩) And.right

/-- Both machines find counterparts under the same name. -/
theorem rel_method? (h : m.MadeFrom m₀) (method : MethodRef) :
    Option.Rel (Method.Counterpart method.owner) (m.method? method) (m₀.method? method) := by
  have hfound := rel_find? (p := (·.name = method.owner)) (q := (·.name = method.owner)) h.units
    fun u u₀ hu => by rw [(CompiledUnit.forall₂_methods hu).1]
  simp only [method?, unit?]
  generalize hu : m.units.find? (·.name = method.owner) = u? at hfound
  generalize hu₀ : m₀.units.find? (·.name = method.owner) = u₀? at hfound
  cases hfound with
  | none => exact .none
  | @some u u₀ hmade =>
      have howner : u₀.name = method.owner := by simpa using List.find?_some hu₀
      refine howner ▸ rel_find? (h.forall₂_counterpart (List.mem_of_find?_eq_some hu₀) hmade)
        fun d' d hd => ?_
      rcases hd with ⟨rfl, -⟩ | ⟨frames, hd⟩
      · rfl
      · rw [hd.name, hd.type]

theorem native? (h : m.MadeFrom m₀) (method : MethodRef) : m.native? method = m₀.native? method := by
  rw [Machine.native?, h.natives, Machine.native?]

/-- Both machines get to the same native, or to counterparts, or fail in the same way. -/
theorem invoke_cases (h : m.MadeFrom m₀) (depth : Nat) (w : World)
    (kind : InvokeKind) (method : MethodRef) (args : List Value) :
    (∃ e, m₀.invoke depth w kind method args = .failed e w ∧
        m.invoke depth w kind method args = .failed e w) ∨
      (∃ native, m₀.native? method = some native ∧
        m.invoke depth w kind method args = m₀.invoke depth w kind method args ∧
        m₀.invoke depth w kind method args =
          match native w args with
          | (.ok result, u) => .returned result u
          | (.error cause, u) => .failed cause u) ∨
      ∃ d d', d'.Counterpart method.owner d ∧ m₀.method? method = some d ∧
        m.method? method = some d' ∧ d.hasBody ∧ (d.isStatic ↔ kind = .static) ∧ ∀ w,
          m₀.invoke depth w kind method args =
            .entered ⟨method.owner, d, 0, .entry args d.maxLocals.toNat⟩ ∧
          m.invoke depth w kind method args =
            .entered ⟨method.owner, d', 0, .entry args d'.maxLocals.toNat⟩ := by
  simp only [invoke, h.native? method, h.limits]
  have hrel := h.rel_method? method
  by_cases hnull : kind = .virtual && args.head?.all Value.isNull
  · exact .inl ⟨.nullReference, by simp [hnull], by simp [hnull]⟩
  · simp only [hnull, Bool.false_eq_true, if_false]
    cases hn : m₀.native? method with
    | some native => exact .inr (.inl ⟨native, rfl, rfl, rfl⟩)
    | none =>
        dsimp only
        generalize hd : m₀.method? method = d? at hrel
        generalize m.method? method = d'? at hrel
        cases hrel with
        | none => exact .inl ⟨_, rfl, rfl⟩
        | @some d' d hcounterpart =>
            have hbody : d'.hasBody = d.hasBody := by
              rcases hcounterpart with ⟨rfl, -⟩ | ⟨frames, hresumes⟩
              · rfl
              · rw [hresumes.hasBody, hresumes.hasBody']
            simp only [hbody, hcounterpart.isStatic]
            by_cases hb : d.hasBody
            · by_cases hk : d.isStatic ↔ kind = .static
              · by_cases hdepth : m₀.limits.callDepth ≤ depth
                · exact .inl ⟨.callDepthLimit m₀.limits.callDepth, by simp [hb, hk, hdepth],
                    by simp [hb, hk, hdepth]⟩
                · refine .inr (.inr ⟨d, d', hcounterpart, rfl, rfl, hb, hk, fun w => ?_⟩)
                  simp [hb, hk, hdepth]
              · exact .inl ⟨.wrongInvokeKind method kind, by simp [hb, hk], by simp [hb, hk]⟩
            · exact .inl ⟨.unknownMethod method, by simp [hb], by simp [hb]⟩

end Machine.MadeFrom

end Resumable
