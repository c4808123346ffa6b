import Resumable.Proofs.AddedCode
import Resumable.Proofs.Readback
import Resumable.Proofs.WeaveTyping

/-!
# The types in frames

The types that a method's frames refer to come from the method's entry and from the instructions
that name types, by taking elements of arrays and by merging.  So what merging keeps is true of all
of them if it's true at the start.  The code of resumable methods names only few types of its own.
-/

namespace Resumable

/-- True if the property is one of the primitive types, and of all types that come of types with the
property. -/
structure ValueType.Inherited (P : ValueType → Prop) : Prop where
  primitive : ∀ {t : ValueType}, t.isReference = false → P t
  root : P .root
  string : P (.object stringTypeName)
  element : ∀ {t}, P (.array t) → P t
  merge : ∀ {s t}, P s → P t → P (s.merge t)

namespace Progress

variable {m : Method} {places : List (Label × Nat)} {s t : Progress} {P : Frame → Prop}

/-- True if all frames that are known so far have the property. -/
def Every (P : Frame → Prop) (s : Progress) : Prop := ∀ p f, Frames.at? s.frames p = some f → P f

theorem every_of_flowInto {position q : Nat} {f : Frame} (hs : s.Every P) (hf : P f)
    (merge : ∀ {f g k : Frame}, P f → P g → f.merge g = .ok k → P k)
    (h : flowInto position f s q = .ok t) : t.Every P := by
  have hupdate {g : Frame} (hq : q < s.frames.length) (hg : P g) : (s.update q g).Every P := by
    intro p f' hf'
    rw [at?_update s hq] at hf'
    split at hf'
    · cases hf'
      exact hg
    · exact hs p f' hf'
  rw [flowInto_eq] at h
  split at h
  · cases h
    exact hs
  · rename_i hnone
    cases h
    exact hupdate (List.getElem?_eq_some_iff.1 hnone).1 hf
  · rename_i known hknown
    have hP : P known := hs q known (by simp [Frames.at?, hknown])
    split at h
    · cases h
    · cases h
    · rename_i merged hmerged
      cases h
      split
      · exact hs
      · exact hupdate (List.getElem?_eq_some_iff.1 hknown).1 (merge hP hf hmerged)

theorem every_of_foldlM {position : Nat} {f : Frame} {targets : List Nat} (hs : s.Every P)
    (hf : P f) (merge : ∀ {f g k : Frame}, P f → P g → f.merge g = .ok k → P k)
    (h : targets.foldlM (flowInto position f) s = .ok t) : t.Every P := by
  induction targets generalizing s with
  | nil =>
      cases h
      exact hs
  | cons q targets ih =>
      rw [List.foldlM_cons] at h
      obtain ⟨u, hu, h⟩ := Except.bind_eq_ok.1 h
      exact ih (every_of_flowInto hs hf merge hu) h

theorem every_of_follow {position : Nat} (hs : s.Every P)
    (merge : ∀ {f g k : Frame}, P f → P g → f.merge g = .ok k → P k)
    (step : ∀ {f i g}, P f → i ∈ m.body.instructions → m.Rule f i g → P g)
    (h : follow m places position s = .ok t) : t.Every P := by
  simp only [follow] at h
  split at h
  · rename_i f i hf hi
    split at h
    · cases h
    · rename_i after hafter
      have hP : P after :=
        step (hs position f hf) (List.mem_of_getElem? hi) (Method.rule_of_transfer hafter)
      split at h
      · cases h
      · rename_i u hu
        have hu := every_of_foldlM hs hP merge hu
        split at h
        · cases h
          exact hu
        · split at h
          · cases h
          · exact every_of_flowInto hu hP merge h
  · cases h
    exact hs

end Progress

namespace Method

variable {m : Method} {owner : String} {frames : Frames}

/-- What's true of the frame at the entry, and kept by merging and by the rules, is true of all
frames of a method. -/
theorem forall_at_of_analyze {P : Frame → Prop} (h : m.analyze owner = .ok frames)
    (entry : ∀ f, m.entryFrame owner = .ok f → P f)
    (merge : ∀ {f g k : Frame}, P f → P g → f.merge g = .ok k → P k)
    (step : ∀ {f i g}, P f → i ∈ m.body.instructions → m.Rule f i g → P g) :
    ∀ p f, frames.at? p = some f → P f := by
  simp only [analyze] at h
  split at h
  · cases h
  · rename_i places hplaces
    split at h
    · cases h
    · rename_i f₀ hf₀
      split at h
      · cases h
      · have hstart : (Progress.start m.body.length f₀).Every P := by
          intro p f hf
          cases p with
          | zero =>
              cases hf
              exact entry f₀ hf₀
          | succ p =>
              simp only [Frames.at?, Progress.start, List.getElem?_cons_succ,
                List.getElem?_replicate] at hf
              split at hf <;> cases hf
        rcases @Progress.run_cases m places _ _ hstart
          (fun s t position rest hs hp hf =>
            @Progress.every_of_follow m places { s with pending := rest } t P position hs merge
              step hf) with
          ⟨found, hrun, hs⟩ | ⟨s, position, rest, e, hrun, -⟩
        · rw [hrun] at h
          cases h
          exact hs
        · rw [hrun] at h
          cases h

end Method

/-- The types that the instruction names or that what it pushes has by it. -/
def Instruction.types : Instruction → List ValueType
  | newArray element => [element, .array element]
  | checkCast type | instanceOf type => [type]
  | invoke _ method => method.type.returns.toList
  | _ => []

theorem Instruction.mem_types_of_named {i : Instruction} {t : ValueType} (h : i.named? = some t) :
    t ∈ i.types := by
  cases i <;> cases h <;> simp [types]

section
variable {P : ValueType → Prop} (hP : ValueType.Inherited P)

namespace FrameValue

theorem names_of_not_isReference {v : FrameValue} (h : ∀ t, v ≠ .reference t) : v.Names P :=
  fun t ht => absurd ht (h t)

theorem names_ofType {t : ValueType} (h : P t) : (ofType t).Names P := by
  intro u hu
  cases t <;> cases hu <;> exact h

include hP

theorem names_ofKind (kind : ValueKind) : (ofKind kind).Names P := by
  intro t ht
  cases kind <;> cases ht
  exact hP.root

theorem names_merge {a b : FrameValue} (ha : a.Names P) (hb : b.Names P) :
    (a.merge b).Names P := by
  fun_cases FrameValue.merge a b with
  | case1 => exact ha
  | case2 => exact hb
  | case3 => exact ha
  | case4 s t =>
      intro u hu
      cases hu
      exact hP.merge (ha s rfl) (hb t rfl)
  | case5 => exact names_of_not_isReference (by simp)

theorem ArrayOf.names {v element : FrameValue} {kind : ValueKind} (h : v.ArrayOf kind element)
    (hv : v.Names P) : element.Names P := by
  cases h with
  | null kind =>
      split
      · exact names_of_not_isReference (by simp)
      · exact names_ofKind hP kind
  | array element => exact names_ofType (hP.element (hv _ rfl))

end FrameValue

theorem Method.names_of_entryFrame {owner : String} {m : Method} {f : Frame}
    (h : m.entryFrame owner = .ok f) (receiver : m.isStatic = false → P (.object owner))
    (params : ∀ t ∈ m.type.params, P t) : f.Names P := by
  have hnone {v : FrameValue} (h : v = .top) : v.Names P :=
    FrameValue.names_of_not_isReference (by simp [h])
  have hlocals : ∀ v ∈ m.entryLocals owner, v.Names P := by
    simp only [entryLocals, List.forall_mem_append]
    constructor
    · intro v hv t ht
      subst ht
      cases hstatic : m.isStatic <;> rw [hstatic] at hv
      · cases List.mem_singleton.1 hv
        exact receiver hstatic
      · cases hv
    · intro v hv
      obtain ⟨t, ht, hv⟩ := List.mem_flatMap.1 hv
      split at hv
      · simp only [List.mem_cons, List.not_mem_nil, or_false] at hv
        exact hv.elim (fun hv => hv ▸ FrameValue.names_ofType (params t ht)) hnone
      · exact List.mem_singleton.1 hv ▸ FrameValue.names_ofType (params t ht)
  simp only [entryFrame] at h
  split at h
  · cases h
  · cases h
    exact ⟨List.forall_mem_append.2 ⟨hlocals, fun v hv => hnone (List.eq_of_mem_replicate hv)⟩,
      fun v hv => absurd hv List.not_mem_nil⟩

include hP

theorem Frame.Names.merge {f g merged : Frame} (hf : f.Names P) (hg : g.Names P)
    (h : f.merge g = .ok merged) : merged.Names P := by
  have hvalues {known incoming : List FrameValue} (hv : ∀ v ∈ known, v.Names P)
      (hv' : ∀ v ∈ incoming, v.Names P) : ∀ v ∈ mergeLocals known incoming, v.Names P := by
    fun_induction mergeLocals known incoming with
    | case1 a known b incoming ih =>
        rw [List.forall_mem_cons] at hv hv' ⊢
        exact ⟨FrameValue.names_merge hP hv.1 hv'.1, ih hv.2 hv'.2⟩
    | case2 => exact hv
  simp only [Frame.merge] at h
  split at h
  · rename_i hheight
    obtain ⟨stack, hstack, h⟩ := Except.bind_eq_ok.1 h
    cases h
    rw [mergeStacks_eq_zipWith hstack, ← mergeLocals_eq_zipWith hheight]
    exact ⟨hvalues hf.1 hg.1, hvalues hf.2 hg.2⟩
  · cases h

theorem Instruction.names_of_fixedEffect {i : Instruction} {kinds : List ValueKind}
    {given : List FrameValue} (h : i.fixedEffect? = some (kinds, given))
    (hi : ∀ t ∈ i.types, P t) : ∀ v ∈ given, v.Names P := by
  have ofKind (kind : ValueKind) := FrameValue.names_ofKind hP kind
  cases i <;> simp only [fixedEffect?] at h
  case const c =>
    cases h
    have hstring := hP.string
    cases c <;> simp_all [Method.constantValue, FrameValue.Names]
  case binary op kind =>
    split at h
    · cases h
    · cases h
      simpa using ofKind kind.toValueKind
  case checkCast type =>
    split at h
    · cases h
      have htype := hi type List.mem_cons_self
      simp_all [FrameValue.Names]
    · cases h
  case instanceOf type =>
    split at h
    · cases h
      simp [FrameValue.Names]
    · cases h
  case newArray element =>
    cases h
    have htype := hi (.array element) (by simp [types])
    simp_all [FrameValue.Names]
  case negate kind =>
    cases h
    simpa using ofKind kind.toValueKind
  case convert source target =>
    cases h
    simpa using ofKind target.toValueKind
  all_goals
    cases h
    try simp [FrameValue.Names]

theorem Method.Rule.names {m : Method} {f g : Frame} {i : Instruction} (h : m.Rule f i g)
    (hf : f.Names P) (hi : ∀ t ∈ i.types, P t) : g.Names P := by
  obtain ⟨hlocals, hstack⟩ := hf
  cases h with
  | fixed effect operands =>
      rw [List.forall_mem_append] at hstack
      exact ⟨hlocals, List.forall_mem_append.2
        ⟨Instruction.names_of_fixedEffect hP effect hi, hstack.2⟩⟩
  | shuffle moves =>
      rw [List.forall_mem_append] at hstack
      exact ⟨hlocals, List.forall_mem_append.2
        ⟨fun v hv => hstack.1 v (moves.mem_taken hv), hstack.2⟩⟩
  | load inRange found hasKind =>
      exact ⟨hlocals, List.forall_mem_cons.2 ⟨hlocals _ (List.mem_of_getElem? found), hstack⟩⟩
  | store hasKind inRange =>
      rw [List.forall_mem_cons] at hstack
      refine ⟨fun w hw => ?_, hstack.2⟩
      rcases Frame.mem_storeLocals hw with rfl | rfl | hw
      · exact hstack.1
      · exact FrameValue.names_of_not_isReference (by simp)
      · exact hlocals w hw
  | increment inRange found => exact ⟨hlocals, hstack⟩
  | @invoke kind method taken locals stack operands =>
      rw [List.forall_mem_append] at hstack
      refine ⟨hlocals, List.forall_mem_append.2 ⟨fun v hv => ?_, hstack.2⟩⟩
      obtain ⟨type, hr, rfl⟩ := Option.map_eq_some_iff.1 (Option.mem_toList.1 hv)
      exact FrameValue.names_ofType (hi type (Option.mem_toList.2 hr))
  | arrayLength array =>
      rw [List.forall_mem_cons] at hstack
      exact ⟨hlocals, List.forall_mem_cons.2
        ⟨FrameValue.names_of_not_isReference (by simp), hstack.2⟩⟩
  | arrayLoad array =>
      simp only [List.forall_mem_cons] at hstack
      exact ⟨hlocals, List.forall_mem_cons.2 ⟨array.names hP hstack.2.1, hstack.2.2⟩⟩
  | arrayStore hasKind array =>
      simp only [List.forall_mem_cons] at hstack
      exact ⟨hlocals, hstack.2.2.2⟩
  | leaveNothing returns => exact ⟨hlocals, hstack⟩
  | leave returns fits =>
      rw [List.forall_mem_cons] at hstack
      exact ⟨hlocals, hstack.2⟩

/-- The frames of a method refer to types that come of those at its entry and of those that its
instructions name. -/
theorem Method.names_of_analyze {owner : String} {m : Method} {frames : Frames}
    (h : m.analyze owner = .ok frames) (receiver : m.isStatic = false → P (.object owner))
    (params : ∀ t ∈ m.type.params, P t)
    (named : ∀ i ∈ m.body.instructions, ∀ t ∈ i.types, P t) :
    ∀ p f, frames.at? p = some f → f.Names P :=
  forall_at_of_analyze h (fun _ hf => names_of_entryFrame hf receiver params)
    (fun hf hg hmerged => Frame.Names.merge hP hf hg hmerged)
    fun hf hi hrule => hrule.names hP hf (named _ hi)

end

/-- True if the property is one of the types that the code of resumable methods names, too. -/
structure ValueType.Provided (P : ValueType → Prop) : Prop extends ValueType.Inherited P where
  snapshot : P Capability.snapshotType
  state : P Capability.stateType
  box : ∀ k : NumericKind, P (.object k.boxTypeName)

namespace MethodRef.InLibrary

variable {method : MethodRef}

theorem mem_operations (h : method.InLibrary) : method ∈ Library.operations.map (·.1) := by
  obtain ⟨native, hnative⟩ := Option.isSome_iff_exists.1 h
  obtain ⟨before, after, heq, -⟩ := List.lookup_eq_some_iff.1 hnative
  have hmem : (method, native) ∈ Library.natives := heq ▸ by simp
  obtain ⟨operation, hoperation, heq⟩ := List.mem_map.1 hmem
  cases heq
  exact List.mem_map_of_mem hoperation

/-- The methods of the library can be written. -/
theorem encodable (h : method.InLibrary) : method.Encodable := by
  have hall : ∀ method ∈ Library.operations.map (·.1), method.owner.utf8ByteSize < 0x100000000 ∧
      method.name.utf8ByteSize < 0x100000000 ∧ method.type.text.utf8ByteSize < 0x100000000 ∧
      ∀ t ∈ method.type.params ++ method.type.returns.toList, t.HasPlainNames := by
    decide
  obtain ⟨howner, hname, htype, hnames⟩ := hall method h.mem_operations
  rw [List.forall_mem_append] at hnames
  exact ⟨howner, hname, ⟨hnames.1, fun r hr => hnames.2 r (Option.mem_toList.2 hr)⟩, htype⟩

/-- What the methods of the library return. -/
theorem returns {P : ValueType → Prop} (hP : ValueType.Provided P) (h : method.InLibrary) :
    ∀ t ∈ method.type.returns, P t := by
  have hall : ∀ method ∈ Library.operations.map (·.1), ∀ t ∈ method.type.returns,
      t.isReference = false ∨ t = Capability.snapshotType ∨ t = Capability.stateType ∨
        ∃ k ∈ [NumericKind.int, .long, .float, .double], t = .object k.boxTypeName := by
    decide
  intro t ht
  rcases hall method h.mem_operations t ht with h | rfl | rfl | ⟨k, -, rfl⟩
  · exact hP.primitive h
  · exact hP.snapshot
  · exact hP.state
  · exact hP.box k

end MethodRef.InLibrary

/-- True if the instruction can be written but for the types that it names, which have the property,
and so have the types of what it pushes. -/
@[simp] def Instruction.Writes (P : ValueType → Prop) : Instruction → Prop
  | const (.string s) => s.utf8ByteSize < 0x100000000
  | tableSwitch _ _ targets => targets.length < 0x100000000
  | lookupSwitch _ cases => cases.length < 0x100000000
  | invoke _ m => m.Encodable ∧ ∀ t ∈ m.type.returns, P t
  | newArray t => P t ∧ P (.array t)
  | checkCast t | instanceOf t => P t
  | _ => True

namespace Instruction

variable {P : ValueType → Prop} {i : Instruction}

theorem Writes.types (h : i.Writes P) : ∀ t ∈ i.types, P t := by
  cases i <;> simp_all [Instruction.types]

theorem Writes.encodableWith (h : i.Writes P) {Q : ValueType → Prop}
    (hQ : ∀ t, i.named? = some t → Q t) : i.EncodableWith Q := by
  cases i with
  | const c => cases c <;> simp_all [EncodableWith, Encodable, named?]
  | _ => simp_all [EncodableWith, Encodable, named?]

theorem Encodable.writes (h : i.Encodable) (hP : ∀ t ∈ i.types, P t) : i.Writes P := by
  cases i with
  | const c => cases c <;> simp_all [Encodable]
  | _ => simp_all [Encodable, Instruction.types]

end Instruction

/-- True if all of the code can be written but for the types that it names, and these have the
property. -/
def WritesOnly (P : ValueType → Prop) (code : List Instruction) : Prop := ∀ i ∈ code, i.Writes P

namespace WritesOnly

variable {P : ValueType → Prop} {code rest : List Instruction} {i : Instruction}

@[simp] theorem nil : WritesOnly P [] := fun _ h => absurd h List.not_mem_nil

@[simp] theorem cons_iff : WritesOnly P (i :: code) ↔ i.Writes P ∧ WritesOnly P code :=
  List.forall_mem_cons

@[simp] theorem append_iff :
    WritesOnly P (code ++ rest) ↔ WritesOnly P code ∧ WritesOnly P rest :=
  List.forall_mem_append

theorem flatMap {α : Type} {l : List α} {f : α → List Instruction}
    (h : ∀ a ∈ l, WritesOnly P (f a)) : WritesOnly P (l.flatMap f) := by
  intro i hi
  obtain ⟨a, ha, hi⟩ := List.mem_flatMap.1 hi
  exact h a ha i hi

end WritesOnly

section
variable {P : ValueType → Prop} (hP : ValueType.Provided P)

namespace Snapshot

variable (t : SlotTable)

include hP

theorem writesOnly_invoke {kind : InvokeKind} {method : MethodRef} (h : method.InLibrary) :
    WritesOnly P [.invoke kind method] := by
  simpa using ⟨h.encodable, h.returns hP⟩

theorem writesOnly_boxTop (kind : ValueKind) : WritesOnly P (boxTop kind) := by
  simp only [boxTop]
  split
  · exact writesOnly_invoke hP (MethodRef.inLibrary_box _)
  · exact .nil

theorem writesOnly_unboxTop {v : FrameValue} (hv : v.Names P) : WritesOnly P (unboxTop v) := by
  simp only [unboxTop]
  split
  · rename_i type
    simpa using hv type rfl
  · split
    · rename_i k _
      have hunbox : WritesOnly P [.invoke .virtual k.unbox] :=
        writesOnly_invoke hP (MethodRef.Looks.unbox k).retains.1
      simp_all [hP.box k]
    · exact .nil

theorem writesOnly_loadElement (array : UInt16) (index : Nat) {v : FrameValue} (hv : v.Names P) :
    WritesOnly P (loadElement array index v) := by
  have hunbox := writesOnly_unboxTop hP hv
  simp only [loadElement]
  split <;> simp [loadReference, pushInt, hunbox]

theorem writesOnly_newArray (length : Nat) (index : UInt16) :
    WritesOnly P (newArray length index) := by
  simpa [newArray, pushInt, storeReference] using ⟨hP.root, hP.snapshot⟩

theorem writesOnly_saveStack (stack : List FrameValue) : WritesOnly P (saveStack t stack) := by
  refine WritesOnly.append_iff.2 ⟨writesOnly_newArray hP _ _, ?_⟩
  induction stack with
  | nil => exact .nil
  | cons v below ih =>
      refine WritesOnly.append_iff.2 ⟨?_, ih⟩
      simp only [saveTop]
      split <;> simp [loadReference, storeReference, pushInt, writesOnly_boxTop hP]

theorem writesOnly_loadStack {stack : List FrameValue} (h : ∀ v ∈ stack, v.Names P) :
    WritesOnly P (loadStack t stack) := by
  induction stack with
  | nil => exact .nil
  | cons v below ih =>
      rw [List.forall_mem_cons] at h
      exact WritesOnly.append_iff.2 ⟨ih h.2, writesOnly_loadElement hP _ _ h.1⟩

theorem writesOnly_saveLocals (locals : List FrameValue) : WritesOnly P (saveLocals t locals) := by
  refine WritesOnly.append_iff.2 ⟨writesOnly_newArray hP _ _, .flatMap fun (v, index) _ => ?_⟩
  simp only [saveLocal]
  split
  · exact .nil
  · split
    · exact .nil
    · simp [loadReference, pushInt, writesOnly_boxTop hP]

theorem writesOnly_loadLocals {locals : List FrameValue} (h : ∀ v ∈ locals, v.Names P) :
    WritesOnly P (loadLocals t locals) := by
  refine .flatMap fun (v, index) hmem => ?_
  have hv := writesOnly_loadElement hP t.localsArray index (h v (List.fst_mem_of_mem_zipIdx hmem))
  simp only [loadLocal]
  split <;> simp [hv]

theorem writesOnly_pushState (id : Nat) : WritesOnly P (pushState t id) := by
  have hcreate : WritesOnly P [.invoke .static Capability.createState] := writesOnly_invoke hP rfl
  have hpush : WritesOnly P [.invoke .virtual Capability.pushState] := writesOnly_invoke hP rfl
  simp_all [pushState, loadReference, pushInt]

theorem writesOnly_popState : WritesOnly P (popState t) := by
  have hpop : WritesOnly P [.invoke .virtual Capability.popState] := writesOnly_invoke hP rfl
  have hstack : WritesOnly P [.invoke .virtual Capability.getStack] := writesOnly_invoke hP rfl
  have hlocals : WritesOnly P [.invoke .virtual Capability.getLocals] := writesOnly_invoke hP rfl
  simp_all [popState, loadReference, storeReference]

theorem writesOnly_getMode : WritesOnly P (getMode t) := by
  have hmode : WritesOnly P [.invoke .virtual Capability.getMode] := writesOnly_invoke hP rfl
  simp_all [getMode, loadReference]

theorem writesOnly_setMode (mode : Int32) : WritesOnly P (setMode t mode) := by
  have hmode : WritesOnly P [.invoke .virtual Capability.setMode] := writesOnly_invoke hP rfl
  simp_all [setMode, loadReference]

omit hP in
theorem writesOnly_leaveEarly (returns : Option ValueType) : WritesOnly P (leaveEarly returns) := by
  cases returns with
  | none => simp [leaveEarly]
  | some type =>
      cases hk : type.kind <;> simp [leaveEarly, hk, zero]

omit hP in
theorem writesOnly_fail {message : String} (h : message.utf8ByteSize < 0x100000000) :
    WritesOnly P (fail message) := by
  simpa [fail] using h

end Snapshot

namespace Method

open Snapshot

variable {m : Method} {frames : Frames} {t : SlotTable} {point : ContinuationPoint}

include hP

theorem writesOnly_saveBlock (h : ∀ v ∈ point.frame.stack, v.Names P) :
    WritesOnly P (point.saveBlock t) := by
  simp [ContinuationPoint.saveBlock, writesOnly_saveStack hP, writesOnly_loadStack hP t h,
    writesOnly_saveLocals hP]

theorem writesOnly_afterSave (proceed : Label) : WritesOnly P (point.afterSave t proceed) := by
  simp [ContinuationPoint.afterSave, writesOnly_getMode hP, writesOnly_pushState hP,
    writesOnly_leaveEarly]

theorem writesOnly_suspendBlock : WritesOnly P (point.suspendBlock t) := by
  simp [ContinuationPoint.suspendBlock, writesOnly_saveStack hP, writesOnly_saveLocals hP,
    writesOnly_pushState hP, writesOnly_setMode hP, writesOnly_leaveEarly]

theorem writesOnly_block {p : Nat} {i : Instruction} (h : ∀ p f, frames.at? p = some f → f.Names P)
    (hi : WritesOnly P [i]) : WritesOnly P (m.block frames p i) := by
  simp only [block]
  split
  · exact hi
  · rename_i point proceed hsite
    obtain ⟨hframe, -⟩ := of_mem_points (mem_points_of_mem_sites (site?_eq_some.1 hsite).1)
    have hstack := (h _ _ hframe).2
    simp only [ContinuationPoint.block]
    split
    · exact writesOnly_suspendBlock hP
    · rw [WritesOnly.append_iff, ← List.singleton_append, WritesOnly.append_iff]
      exact ⟨writesOnly_saveBlock hP hstack, hi, writesOnly_afterSave hP proceed⟩

theorem writesOnly_prologue (h : ∀ p f, frames.at? p = some f → f.Names P)
    (hcount : (m.points frames).length < 0x100000000) : WritesOnly P (m.prologue frames) := by
  have hpoint : WritesOnly P [.invoke .virtual Capability.getPoint] := writesOnly_invoke hP rfl
  have hloads : WritesOnly P (m.loadBlocks frames) := by
    refine .flatMap fun (point, here) hmem => ?_
    obtain ⟨hframe, -⟩ := of_mem_points (List.of_mem_zip hmem).1
    have hstack : ∀ v ∈ point.restoredStack, v.Names P := fun v hv =>
      (h _ _ hframe).2 v (mem_restoredStack hv)
    simp [ContinuationPoint.loadBlock, writesOnly_loadStack hP _ hstack,
      writesOnly_loadLocals hP _ (h _ _ hframe).1]
  have hlabels : (m.prologueLabels frames).points.length < 0x100000000 := by
    rwa [length_prologueLabels]
  have hfaults : WritesOnly P (m.faults frames) := by
    simp only [faults, List.cons_append, WritesOnly.cons_iff, WritesOnly.append_iff,
      Instruction.Writes, true_and]
    exact ⟨⟨writesOnly_fail (by decide), writesOnly_fail (by decide)⟩, writesOnly_fail (by decide)⟩
  rw [prologue_eq]
  simp_all [dispatch, pointDispatch, writesOnly_getMode hP, writesOnly_popState hP, loadReference,
    storeReference]

/-- The code of a resumable method names the types that the frames of the method refer to, and its
own, and can be written if they can. -/
theorem writesOnly_weave (hne : m.body.length ≠ 0) (h : ∀ p f, frames.at? p = some f → f.Names P)
    (hcount : (m.points frames).length < 0x100000000) (hm : WritesOnly P m.body.instructions) :
    WritesOnly P (m.weave frames).body.instructions := by
  rw [instructions_weave hne]
  refine WritesOnly.append_iff.2 ⟨writesOnly_prologue hP h hcount, .flatMap fun (i, p) hmem => ?_⟩
  exact writesOnly_block hP h (by simpa using hm i (List.fst_mem_of_mem_zipIdx hmem))

end Method

end

end Resumable
