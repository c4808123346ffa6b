import Resumable.Proofs.Forms
import Resumable.Proofs.NamedTypes
import Resumable.Proofs.StackDepth

/-!
# Instrumented units

What comes of instrumenting a unit that has been read can be written, and it's read back as it was
made, with its labels in order.  It's verified, too, and instrumenting it again changes nothing.
-/

namespace Resumable

namespace ValueType

theorem hasPlainNames_merge {s t : ValueType} (hs : s.HasPlainNames) (ht : t.HasPlainNames) :
    (s.merge t).HasPlainNames := by
  have hroot : HasPlainNames .root := by decide
  fun_induction ValueType.merge s t with
  | case1 a b hab => exact hs
  | case2 a b hab hba => exact ht
  | case3 a b hab hba href ih => exact ih hs ht
  | case4 | case7 => exact hroot
  | case5 => exact hs
  | case6 => exact ht

/-- All types in resumable methods have plain names if those have that are there at the start. -/
theorem provided_hasPlainNames : Provided HasPlainNames where
  primitive {t} ht := by cases t <;> first | cases ht; done | exact trivial
  root := by decide
  string := by decide
  element h := h
  merge := hasPlainNames_merge
  snapshot := by decide
  state := by decide
  box k := by cases k <;> decide

end ValueType

/-- Instructions that can be written name types with plain names. -/
theorem Instruction.Encodable.hasPlainNames {i : Instruction} (h : i.Encodable) :
    ∀ t ∈ i.types, t.HasPlainNames := by
  cases i with
  | newArray element =>
      have hplain : element.HasPlainNames := h.names
      exact List.forall_mem_cons.2 ⟨hplain, List.forall_mem_singleton.2 hplain⟩
  | checkCast type | instanceOf type => simpa [types] using h.names
  | invoke kind method =>
      intro t ht
      exact h.type.names.2 t (Option.mem_toList.1 ht)
  | _ => simp [types]

theorem Frame.length_stack_le (f : Frame) : f.stack.length ≤ f.stackSlots := by
  rw [stackSlots]
  induction f.stack with
  | nil => exact Nat.le_refl 0
  | cons v below ih =>
      have hslots : 1 ≤ v.slots := by
        simp only [FrameValue.slots]
        split <;> decide
      rw [List.length_cons, List.foldr_cons]
      omega

/-- The frames that the analysis finds don't hold more values than there are slots. -/
theorem Method.Analyzed.lengths_lt {m : Method} {owner : String} {frames : Frames} {p : Nat}
    {f : Frame} (h : m.Analyzed owner frames) (hf : frames.at? p = some f) :
    f.locals.length < 65536 ∧ f.stack.length < 65536 := by
  have hlocals := (h.wellFormed p f hf).localsLength
  have hstack := Nat.le_trans f.length_stack_le (h.room p f hf)
  have hmaxLocals := UInt16.toNat_lt m.maxLocals
  have hmaxStack := UInt16.toNat_lt m.maxStack
  omega

/-- A stack map has at most one entry for each label that's placed once. -/
theorem Body.stackMap_sublist (b : Body) (frames : Frames) :
    ((b.stackMap frames).map (·.label)).Sublist (placed b.instructions) := by
  simp only [stackMap]
  generalize b.instructions.flatMap Instruction.targets = targets
  generalize b.instructions = is
  induction is generalizing frames with
  | nil => exact .slnil
  | cons i is ih =>
      cases frames with
      | nil => exact List.nil_sublist _
      | cons f? frames =>
          rw [List.zip_cons_cons, List.filterMap_cons, placed_cons]
          split
          · exact (ih frames).trans (List.sublist_append_right _ _)
          · rename_i entry hentry
            split at hentry
            · rename_i l f heq
              cases heq
              split at hentry
              · cases hentry
                exact (ih frames).cons_cons l
              · cases hentry
            · cases hentry

namespace Method

variable {owner : String} {d d' : Method}

/-- True if the labels of a method leave room for those of its resumable form, and for the number
after the last one. -/
structure LabelsLast (owner : String) (d : Method) : Prop where
  used : ∀ l ∈ d.body.instructions.flatMap Instruction.labels, l.number.toNat < 4294967295
  enough : ∀ frames, d.analyze owner = .ok frames →
    d.body.nextLabel.toNat + d.freshLabelCount frames ≤ 4294967295

/-- True if the format can count the method's instructions and the bytes of the descriptors in its
body and in its stack map. -/
structure Countable (m : Method) : Prop where
  instructions : m.body.instructions.length < 0x100000000
  named : ∀ i ∈ m.body.instructions, ∀ t, i.named? = some t → t.IsShort
  entries : ∀ e ∈ m.stackMap, e.frame.Names ValueType.IsShort

/-- What a method becomes. -/
theorem instrument_eq (h : d.instrument owner = .ok d') (hneeds : d.needsInstrumentation) :
    ∃ frames frames', d.analyze owner = .ok frames ∧
      d.maxLocals.toNat + SlotTable.extraSlots ≤ maxSlots ∧
      ({ d.weave frames with maxStack := UInt16.ofNat maxSlots } : Method).analyze owner =
        .ok frames' ∧
      d' = { d.weave frames with
        maxStack := UInt16.ofNat frames'.maxStack
        stackMap := (d.weave frames).body.stackMap frames'
        access := d.access.union .instrumented } := by
  simp only [instrument, hneeds, if_true] at h
  obtain ⟨t, ht, h⟩ := Except.bind_eq_ok.1 h
  cases h
  obtain ⟨frames, hframes, hroom, hrecompute⟩ := transform_eq_ok ht
  obtain ⟨frames', hagain, rfl⟩ := recompute_eq_ok hrecompute
  exact ⟨frames, frames', hframes, hroom, hagain, rfl⟩

/-- What a method becomes is verified. -/
theorem verify_of_instrument (h : d.instrument owner = .ok d') (hneeds : d.needsInstrumentation) :
    d'.verify owner = .ok () := by
  simp only [instrument, hneeds, if_true] at h
  obtain ⟨t, ht, h⟩ := Except.bind_eq_ok.1 h
  cases h
  obtain ⟨frames, -, -, hrecompute⟩ := transform_eq_ok ht
  have haccess : t.access = (d.weave frames).access := by
    obtain ⟨-, -, rfl⟩ := recompute_eq_ok hrecompute
    rfl
  have hstatic : (t.access.union .instrumented).isStatic = (d.weave frames).isStatic := by
    rw [haccess]
    exact AccessFlags.contains_union (by decide)
  obtain ⟨frames'', hanalyze, hcheck⟩ := verify_of_recompute hrecompute hstatic
  simp only [verify, hanalyze, Except.ok_bind, hcheck]

theorem Encodable.writesOnly {P : ValueType → Prop} (hd : d.Encodable)
    (h : ∀ i ∈ d.body.instructions, ∀ t ∈ i.types, P t) : WritesOnly P d.body.instructions :=
  fun i hi => Instruction.Encodable.writes (hd.instructions.2 i hi) (h i hi)

theorem length_points_lt (hlast : d.LabelsLast owner) {frames : Frames}
    (h : d.analyze owner = .ok frames) : (d.points frames).length < 0x100000000 := by
  have henough := hlast.enough frames h
  rw [freshLabelCount] at henough
  omega

/-- What a method becomes can be written, but for the types in it. -/
theorem encodableWith_of_instrument {P : ValueType → Prop} (hd : d.Encodable)
    (hlast : d.LabelsLast owner) (h : d.instrument owner = .ok d') (hneeds : d.needsInstrumentation)
    (hcount : d'.body.instructions.length < 0x100000000)
    (hnamed : ∀ i ∈ d'.body.instructions, ∀ t, i.named? = some t → P t)
    (hentries : ∀ e ∈ d'.stackMap, e.frame.Names P) : d'.EncodableWith P := by
  obtain ⟨frames, frames', hframes, hroom, hagain, rfl⟩ := instrument_eq h hneeds
  have hanalyzed := analyzed_of_analyze hframes
  have hanalyzed' := analyzed_of_analyze hagain
  have hwritten : WritesOnly (fun _ => True) (d.weave frames).body.instructions := by
    refine writesOnly_weave ⟨⟨?_, ?_, ?_, ?_, ?_⟩, ?_, ?_, ?_⟩ hanalyzed.length_ne_zero
      (fun p f _ => ⟨fun _ _ _ _ => trivial, fun _ _ _ _ => trivial⟩)
      (length_points_lt hlast hframes) (hd.writesOnly fun _ _ _ _ => trivial) <;> simp
  have hmap : ((d.weave frames).body.stackMap frames').length ≤
      (d.weave frames).body.instructions.length :=
    Nat.le_trans (List.length_filterMap_le _ _) (List.length_zip ▸ Nat.min_le_left _ _)
  refine ⟨hd.name, hd.type, ⟨hcount, fun i hi => ?_⟩,
    weave_eq_ofList hanalyzed hd.nextLabel hlast.used (hlast.enough frames hframes),
    Nat.lt_of_le_of_lt hmap hcount, fun e he => ?_⟩
  · exact (hwritten i hi).encodableWith (hnamed i hi)
  · obtain ⟨p, -, hf⟩ := mem_stackMap he
    obtain ⟨hlocals, hstack⟩ := hanalyzed'.lengths_lt hf
    exact ⟨Nat.lt_trans hlocals (by decide), Nat.lt_trans hstack (by decide), hentries e he⟩

/-- The types in what a method becomes come from the method and from the code of
resumable methods. -/
theorem types_of_instrument {P : ValueType → Prop} (hP : ValueType.Provided P) (hd : d.Encodable)
    (hlast : d.LabelsLast owner) (receiver : d.isStatic = false → P (.object owner))
    (params : ∀ t ∈ d.type.params, P t) (named : ∀ i ∈ d.body.instructions, ∀ t ∈ i.types, P t)
    (h : d.instrument owner = .ok d') (hneeds : d.needsInstrumentation) :
    (∀ i ∈ d'.body.instructions, ∀ t ∈ i.types, P t) ∧ ∀ e ∈ d'.stackMap, e.frame.Names P := by
  obtain ⟨frames, frames', hframes, hroom, hagain, rfl⟩ := instrument_eq h hneeds
  have hnames := names_of_analyze hP.toInherited hframes receiver params named
  have hwritten := writesOnly_weave hP (analyzed_of_analyze hframes).length_ne_zero hnames
    (length_points_lt hlast hframes) (hd.writesOnly named)
  have hnames' := names_of_analyze hP.toInherited hagain receiver params
    fun i hi => (hwritten i hi).types
  refine ⟨fun i hi => (hwritten i hi).types, fun e he => ?_⟩
  obtain ⟨p, -, hf⟩ := mem_stackMap he
  exact hnames' p e.frame hf

/-- What a method becomes can be written if the format can count it, and if the unit has a plain
name where the method's frames refer to the unit. -/
theorem encodable_of_instrument (hd : d.Encodable) (hlast : d.LabelsLast owner)
    (hname : d.isStatic = false → ';' ∉ owner.toList) (h : d.instrument owner = .ok d')
    (hneeds : d.needsInstrumentation) (hcount : d'.Countable) : d'.Encodable := by
  obtain ⟨hnamed, hframes⟩ := types_of_instrument ValueType.provided_hasPlainNames hd hlast hname
    hd.type.names.1 (fun i hi => (hd.instructions.2 i hi).hasPlainNames) h hneeds
  have hwritten := encodableWith_of_instrument (P := ValueType.Encodable) hd hlast h hneeds
    hcount.instructions
    (fun i hi t ht =>
      ⟨hnamed i hi t (Instruction.mem_types_of_named ht), hcount.named i hi t ht⟩)
    fun e he => ⟨fun v hv t ht => ⟨(hframes e he).1 v hv t ht, (hcount.entries e he).1 v hv t ht⟩,
      fun v hv t ht => ⟨(hframes e he).2 v hv t ht, (hcount.entries e he).2 v hv t ht⟩⟩
  obtain ⟨frames, frames', -, -, hagain, rfl⟩ := instrument_eq h hneeds
  have hanalyzed := analyzed_of_analyze hagain
  obtain ⟨hnodup, htargets⟩ := Body.labelPositions_eq_ok.1 hanalyzed.labels
  refine ⟨hwritten.name, hwritten.type, ⟨hcount.instructions, fun i hi =>
      (hwritten.instructions.2 i hi).encodable⟩, hwritten.nextLabel, hnodup, htargets,
    ⟨hwritten.entries.1, fun e he => ?_⟩, fun e he => ?_,
    (Body.stackMap_sublist _ frames').nodup hnodup⟩
  · obtain ⟨hlocals, hstack, hnames⟩ := hwritten.entries.2 e he
    obtain ⟨p, -, hf⟩ := mem_stackMap he
    have hwell := hanalyzed.wellFormed p e.frame hf
    have hvalue {v : FrameValue} (hproper : v.IsProper) (hv : v.Names ValueType.Encodable) :
        v.Encodable := by
      cases v with
      | reference t => exact ⟨hproper t rfl, hv t rfl⟩
      | _ => trivial
    exact ⟨⟨hlocals, fun v hv => hvalue (hwell.localsProper v hv) (hnames.1 v hv)⟩,
      hstack, fun v hv => hvalue (hwell.stackProper v hv) (hnames.2 v hv)⟩
  · obtain ⟨p, hp, -⟩ := mem_stackMap he
    exact List.mem_filterMap.2 ⟨_, List.mem_of_getElem? hp, rfl⟩

/-- A verified method that needs no more than there is becomes resumable. -/
theorem exists_instrument (hd : d.Encodable) (hneeds : d.needsInstrumentation)
    (hverified : d.verify owner = .ok ())
    (supported : ∀ i ∈ d.body.instructions, i.isUnsupported = false)
    (locals : d.maxLocals.toNat + SlotTable.extraSlots ≤ maxSlots)
    (stack : ∀ needed, d.transform owner ≠ .error (.limitExceeded d.signature .stack needed))
    (hlast : d.LabelsLast owner) : ∃ d', d.instrument owner = .ok d' := by
  have heligible := hneeds
  simp only [needsInstrumentation, Bool.and_eq_true] at heligible
  simp only [verify] at hverified
  obtain ⟨frames, hframes, -⟩ := Except.bind_eq_ok.1 hverified
  have hcounter : ∀ l ∈ Body.placed d.body.instructions, l.number < d.body.nextLabel := by
    intro l hl
    obtain ⟨i, hi, hplaced⟩ := List.mem_filterMap.1 hl
    have hmem : l ∈ d.body.instructions.flatMap Instruction.labels := by
      obtain rfl := Body.placed?_eq_some.1 hplaced
      exact List.mem_flatMap.2 ⟨_, hi, by simp [Instruction.labels, Instruction.placed?]⟩
    rw [hd.nextLabel]
    exact Body.number_lt_nextLabel hmem (hlast.used l hmem)
  obtain ⟨⟨typing, htyping⟩, hlabels⟩ := exists_typing_weave (analyzed_of_analyze hframes)
    heligible.1.1 locals hcounter (hlast.enough frames hframes)
  have hfirst := transform_eq_recompute supported hframes locals
  obtain ⟨t, ht⟩ : ∃ t, d.transform owner = .ok t := by
    rcases recompute_cases htyping hlabels with ⟨needed, hlimit⟩ | ⟨_, _, _, hok, -⟩
    · exact absurd (hfirst.trans hlimit) (stack needed)
    · exact ⟨_, hfirst.trans hok⟩
  exact ⟨_, by simp only [instrument, hneeds, if_true, ht, Except.ok_bind]; rfl⟩

/-- What a method becomes doesn't become anything else. -/
theorem needsInstrumentation_of_instrument (h : d.instrument owner = .ok d') :
    d'.needsInstrumentation = false := by
  rcases instrument_eq_ok h with ⟨hneeds, rfl⟩ | ⟨-, frames, hresumes⟩
  · exact hneeds
  · simp only [needsInstrumentation, hresumes.marked, Bool.not_true, Bool.and_false]

end Method

namespace CompiledUnit

variable {u u' : CompiledUnit} {settings : InstrumentSettings} {n : Nat}

theorem StaysSame.instrument_eq (h : u.StaysSame settings) :
    u.instrument settings = .ok (0, u) := by
  rw [CompiledUnit.instrument_eq]
  rcases h with ⟨hflags, hsettings⟩ | hneeds
  · simp only [hflags, hsettings, Bool.not_false, Bool.and_self, if_true]
    rfl
  · have hcount : u.methods.countP Method.needsInstrumentation = 0 := by
      simpa [List.countP_eq_zero] using hneeds
    simp only [Method.mapM_instrument_of_no_need hcount, hcount, Except.ok_bind, if_true]
    split <;> rfl

/-- There's nothing to do to a unit that has been instrumented. -/
theorem staysSame_of_instrument (h : u.instrument settings = .ok (n, u'))
    {again : InstrumentSettings}
    (hagain : again.reinstrument = settings.reinstrument ∨ again.reinstrument = false) :
    u'.StaysSame again := by
  rcases instrument_cases h with ⟨-, rfl, ⟨hflags, hsettings⟩ | hneeds⟩ | ⟨-, -, -, hmethods⟩
  · exact .inl ⟨hflags, hagain.elim (fun h => h.trans hsettings) id⟩
  · exact .inr hneeds
  · refine .inr fun d' hd' => ?_
    obtain ⟨d, -, hd⟩ := exists_mem_of_forall₂ hmethods hd'
    exact Method.needsInstrumentation_of_instrument hd

theorem verifyBodies_eq_ok :
    u.verifyBodies = .ok () ↔ ∀ m ∈ u.methods, m.hasBody → m.verify u.name = .ok () := by
  rw [verifyBodies, Except.forM_eq_ok]
  refine forall₂_congr fun m hm => ?_
  by_cases hbody : m.hasBody
  · rw [if_pos hbody]
    cases hverify : m.verify u.name <;> simp [hbody]
  · simp [hbody]

/-- The labels of a unit that can be written are in order, so a machine needs to verify the bodies
only. -/
theorem Encodable.verifyForLoading (hu : u.Encodable) (h : u.verifyBodies = .ok ()) :
    u.verifyForLoading = .ok () := by
  refine Except.forM_eq_ok.2 fun m hm => ?_
  obtain ⟨places, hplaces⟩ := Body.labelPositions_eq_ok.2
    ⟨(hu.methods.2 m hm).placedOnce, (hu.methods.2 m hm).targetsPlaced⟩
  have hverify : m.verifyForLoading u.name = .ok () := by
    simp only [Method.verifyForLoading, hplaces]
    by_cases hbody : m.hasBody
    · rw [if_pos hbody, verifyBodies_eq_ok.1 h m hm hbody]
      rfl
    · rw [if_neg hbody]
      rfl
  rw [hverify]

/-- A unit that can be written is written, and what's written is loaded, if its bodies
are verified. -/
theorem Encodable.write_eq_ok (hu : u.Encodable) (h : u.verifyBodies = .ok ())
    (settings : InstrumentSettings) : u.write settings = .ok u.encode := by
  simp only [write, decode_eq_ok.2 ⟨hu, u.spells_encode⟩, h]
  split <;> rfl

theorem Encodable.loadBytes_encode (hu : u.Encodable) (h : u.verifyBodies = .ok ()) (m : Machine) :
    ∃ m', m.loadBytes u.encode = .ok (u.name, m') := by
  refine ⟨{ m with units := u :: m.units.filter (·.name ≠ u.name) }, ?_⟩
  simp only [Machine.loadBytes, decode_eq_ok.2 ⟨hu, u.spells_encode⟩, Machine.load,
    hu.verifyForLoading h]
  rfl

/-- True if label numbers don't run out when the unit's methods become resumable, and the format can
count what they become. -/
def HasRoom (u : CompiledUnit) : Prop :=
  ∀ d ∈ u.methods, d.needsInstrumentation → d.LabelsLast u.name ∧
    ∀ d', d.instrument u.name = .ok d' → d'.Countable

/-- What has to be true of a verified unit for it to be instrumented: the methods that become
resumable have only instructions that can be carried across a suspension and don't need more slots
or labels than there are, their frames don't refer to the unit by a name that can't be read, and the
format can count what they become. -/
structure Instrumentable (u : CompiledUnit) : Prop where
  supported : ∀ d ∈ u.methods, d.needsInstrumentation →
    ∀ i ∈ d.body.instructions, i.isUnsupported = false
  locals : ∀ d ∈ u.methods, d.needsInstrumentation →
    d.maxLocals.toNat + SlotTable.extraSlots ≤ maxSlots
  stack : ∀ d ∈ u.methods, d.needsInstrumentation →
    ∀ needed, d.transform u.name ≠ .error (.limitExceeded d.signature .stack needed)
  name : ∀ d ∈ u.methods, d.needsInstrumentation → d.isStatic = false → ';' ∉ u.name.toList
  room : u.HasRoom

/-- What a unit becomes can be written, and its bodies are verified. -/
theorem encodable_of_instrument (hu : u.Encodable) (hi : u.Instrumentable)
    (hverified : u.verifyBodies = .ok ()) (h : u.instrument settings = .ok (n, u')) :
    u'.Encodable ∧ u'.verifyBodies = .ok () := by
  rcases instrument_cases h with ⟨-, rfl, -⟩ | ⟨-, hname, -, hmethods⟩
  · exact ⟨hu, hverified⟩
  rw [verifyBodies_eq_ok] at hverified
  have hall : ∀ d' ∈ u'.methods, d'.Encodable ∧ (d'.hasBody → d'.verify u.name = .ok ()) := by
    intro d' hd'
    obtain ⟨d, hmem, hd⟩ := exists_mem_of_forall₂ hmethods hd'
    by_cases hneeds : d.needsInstrumentation
    · obtain ⟨hlast, hcountable⟩ := hi.room d hmem hneeds
      exact ⟨Method.encodable_of_instrument (hu.methods.2 d hmem) hlast (hi.name d hmem hneeds) hd
        hneeds (hcountable d' hd), fun _ => Method.verify_of_instrument hd hneeds⟩
    · obtain rfl : d = d' := Except.ok.inj
        ((Method.instrument_of_no_need (by simpa using hneeds)).symm.trans hd)
      exact ⟨hu.methods.2 d hmem, hverified d hmem⟩
  refine ⟨⟨hname ▸ hu.name, hmethods.length_eq ▸ hu.methods.1, fun d' hd' => (hall d' hd').1⟩, ?_⟩
  rw [verifyBodies_eq_ok, hname]
  exact fun d' hd' => (hall d' hd').2

theorem exists_forall₂ {α β : Type} {R : β → α → Prop} {l : List α} (h : ∀ a ∈ l, ∃ b, R b a) :
    ∃ l', List.Forall₂ R l' l := by
  induction l with
  | nil => exact ⟨[], .nil⟩
  | cons a l ih =>
      rw [List.forall_mem_cons] at h
      obtain ⟨b, hb⟩ := h.1
      obtain ⟨l', hl'⟩ := ih h.2
      exact ⟨b :: l', .cons hb hl'⟩

/-- Units are instrumented if nothing speaks against it. -/
theorem exists_instrument (hu : u.Encodable) (hi : u.Instrumentable)
    (hverified : u.verifyBodies = .ok ()) (settings : InstrumentSettings) :
    ∃ n u', u.instrument settings = .ok (n, u') := by
  rw [verifyBodies_eq_ok] at hverified
  have hall : ∀ d ∈ u.methods, ∃ d', d.instrument u.name = .ok d' := by
    intro d hmem
    by_cases hneeds : d.needsInstrumentation
    · have hbody := hneeds
      simp only [Method.needsInstrumentation, Bool.and_eq_true] at hbody
      exact Method.exists_instrument (hu.methods.2 d hmem) hneeds (hverified d hmem hbody.1.2)
        (hi.supported d hmem hneeds) (hi.locals d hmem hneeds) (hi.stack d hmem hneeds)
        (hi.room d hmem hneeds).1
    · exact ⟨d, Method.instrument_of_no_need (by simpa using hneeds)⟩
  obtain ⟨methods, hmethods⟩ := exists_forall₂ hall
  simp only [instrument_eq, Except.mapM_eq_ok.2 hmethods, Except.ok_bind]
  split
  · exact ⟨_, _, rfl⟩
  · split <;> exact ⟨_, _, rfl⟩

theorem verifyBodies_of_verifyForLoading (h : u.verifyForLoading = .ok ()) :
    u.verifyBodies = .ok () := by
  rw [verifyBodies_eq_ok]
  intro m hm hbody
  obtain ⟨frames, hanalyze, hcheck⟩ :=
    Method.analyze_of_verifyForLoading (verifyForLoading_of_mem h hm) hbody
  simp only [Method.verify, hanalyze, Except.ok_bind, hcheck]

/-- Instrumenting the bytes of a verified unit gives bytes that are loaded. -/
theorem exists_instrumentBytes {bytes : Bytes} (hu : decode bytes = .ok u)
    (hverified : u.verifyBodies = .ok ()) (hi : u.Instrumentable) (settings : InstrumentSettings) :
    ∃ o, instrumentBytes settings bytes = .ok o ∧
      ∀ m : Machine, ∃ m', m.loadBytes o = .ok (u.name, m') := by
  have hencodable := (decode_eq_ok.1 hu).1
  obtain ⟨n, u', hmade⟩ := exists_instrument hencodable hi hverified settings
  obtain ⟨hencodable', hverified'⟩ := encodable_of_instrument hencodable hi hverified hmade
  refine ⟨u'.encode, ?_, fun m => ?_⟩
  · simp only [instrumentBytes, hu, hmade, Except.ok_bind,
      hencodable'.write_eq_ok hverified' settings]
  · obtain ⟨m', hm'⟩ := hencodable'.loadBytes_encode hverified' m
    have hname : u'.name = u.name := (forall₂_methods (.inr ⟨settings, n, hmade⟩)).1
    exact ⟨m', hname ▸ hm'⟩

/-- The unit of the sleeper. -/
def sleeperUnit : CompiledUnit := ⟨"Demo", .none, [Method.sleeper]⟩

theorem encodable_sleeper : sleeperUnit.Encodable := by
  refine ⟨by decide, by decide, ?_⟩
  simp only [sleeperUnit, List.forall_mem_singleton]
  have hsuspend : Capability.suspend.Encodable := MethodRef.InLibrary.encodable rfl
  refine ⟨by decide, ⟨⟨by decide, by decide⟩, by decide⟩, ⟨by decide, ?_⟩, rfl, by decide,
    by decide, ⟨by decide, ?_⟩, by decide, by decide⟩
  · simpa [Method.sleeper, Body.ofList, Instruction.Encodable] using hsuspend
  · simp [Method.sleeper]

theorem decode_sleeper : decode sleeperUnit.encode = .ok sleeperUnit :=
  decode_eq_ok.2 ⟨encodable_sleeper, spells_encode _⟩

theorem verifyBodies_sleeper : sleeperUnit.verifyBodies = .ok () := by
  rw [verifyBodies_eq_ok]
  intro m hm _
  obtain rfl : m = Method.sleeper := List.mem_singleton.1 hm
  simp only [Method.verify, sleeperUnit, Method.analyze_sleeper]
  rfl

/-- The types in resumable methods that bring along none of their own. -/
def plainTypes : List ValueType :=
  [.boolean, .int, .long, .float, .double, .root, .object stringTypeName, Capability.type,
    Capability.stateType, Capability.snapshotType] ++
    [NumericKind.int, .long, .float, .double].map fun k => .object k.boxTypeName

theorem provided_plainTypes : ValueType.Provided (· ∈ plainTypes) where
  primitive {t} ht := by cases t <;> first | decide | cases ht
  root := by decide
  string := by decide
  element {t} ht := by
    have hall : ∀ s ∈ plainTypes, s = .array t → t = .root := by
      simp [plainTypes, ValueType.root, Capability.type, Capability.stateType,
        Capability.snapshotType, eq_comm]
    rw [hall _ ht rfl]
    decide
  merge {s t} hs ht := by
    have hall : ∀ s ∈ plainTypes, ∀ t ∈ plainTypes, s.merge t ∈ plainTypes := by decide
    exact hall s hs t ht
  snapshot := by decide
  state := by decide
  box k := by cases k <;> decide

theorem labelsLast_sleeper : Method.sleeper.LabelsLast "Demo" := by
  refine ⟨by decide, fun frames hframes => ?_⟩
  obtain rfl : Method.sleeperFrames = frames :=
    Except.ok.inj (Method.analyze_sleeper.symm.trans hframes)
  decide

theorem length_weave_sleeper :
    2 * (Method.sleeper.weave Method.sleeperFrames).body.length ≤ maxSlots := by
  rw [Method.length_weave (by decide)]
  simp only [Method.blockStart]
  decide

theorem countable_sleeper {d' : Method} (h : Method.sleeper.instrument "Demo" = .ok d') :
    d'.Countable := by
  have hneeds : Method.sleeper.needsInstrumentation := by decide
  have hshort : ∀ t ∈ plainTypes, t.IsShort := by
    simp only [ValueType.IsShort]
    decide
  obtain ⟨hnamed, hframes⟩ := Method.types_of_instrument provided_plainTypes
    (encodable_sleeper.methods.2 _ List.mem_cons_self) labelsLast_sleeper (by decide) (by decide)
    (by decide) h hneeds
  refine ⟨?_, fun i hi t ht => hshort t (hnamed i hi t (Instruction.mem_types_of_named ht)),
    fun e he => ⟨fun v hv t ht => hshort t ((hframes e he).1 v hv t ht),
      fun v hv t ht => hshort t ((hframes e he).2 v hv t ht)⟩⟩
  obtain ⟨frames, frames', hanalyze, -, -, rfl⟩ := Method.instrument_eq h hneeds
  obtain rfl : Method.sleeperFrames = frames :=
    Except.ok.inj (Method.analyze_sleeper.symm.trans hanalyze)
  have hlength := length_weave_sleeper
  simp only [Body.length, maxSlots] at hlength
  dsimp only
  omega

theorem exists_transform_sleeper : ∃ t, Method.sleeper.transform "Demo" = .ok t := by
  have hcounter : ∀ l, .label l ∈ Method.sleeper.body.instructions →
      l.number < Method.sleeper.body.nextLabel := by
    intro l hl
    obtain rfl : l = ⟨0⟩ := by simpa [Method.sleeper, Body.ofList] using hl
    decide
  obtain ⟨t, -, ht, -⟩ := Method.transform_of_length (by decide) (by decide) Method.analyze_sleeper
    (by decide) hcounter (by decide) length_weave_sleeper
  exact ⟨t, ht⟩

theorem instrumentable_sleeper : sleeperUnit.Instrumentable := by
  have hall {P : Method → Prop} (h : P Method.sleeper) : ∀ d ∈ sleeperUnit.methods, P d :=
    List.forall_mem_singleton.2 h
  refine ⟨hall fun _ => by decide, hall fun _ => by decide, hall fun _ needed hlimit => ?_,
    hall (by decide), hall fun _ => ⟨labelsLast_sleeper, fun d' => countable_sleeper⟩⟩
  obtain ⟨t, ht⟩ := exists_transform_sleeper
  exact absurd (ht.symm.trans hlimit) (by simp)

/-- Bytes that a machine loads can be instrumented, and what they become is loaded again. -/
theorem instrumentBytes_loads {bytes : Bytes} {limits : Limits} {name : String} {m : Machine}
    (h : (Machine.new limits).loadBytes bytes = .ok (name, m))
    (instrumentable : ∀ u, decode bytes = .ok u → u.Instrumentable)
    (settings : InstrumentSettings) :
    ∃ o, instrumentBytes settings bytes = .ok o ∧
      ∀ m : Machine, ∃ m', m.loadBytes o = .ok (name, m') := by
  simp only [Machine.loadBytes] at h
  split at h
  · cases h
  rename_i u hu
  obtain ⟨loaded, hload, h⟩ := Except.bind_eq_ok.1 h
  cases h
  obtain ⟨⟨⟩, hverified, -⟩ := Except.bind_eq_ok.1 hload
  exact exists_instrumentBytes hu (verifyBodies_of_verifyForLoading hverified)
    (instrumentable u hu) settings

/-- The sleeper's bytes can be instrumented. -/
theorem instrumentBytes_loads_sleeper : ∃ o,
    instrumentBytes ⟨true, false⟩ sleeperUnit.encode = .ok o ∧
      ∀ m : Machine, ∃ m', m.loadBytes o = .ok ("Demo", m') := by
  obtain ⟨m, hm⟩ := encodable_sleeper.loadBytes_encode verifyBodies_sleeper (Machine.new .standard)
  refine instrumentBytes_loads hm (fun u hu => ?_) ⟨true, false⟩
  obtain rfl := Except.ok.inj (decode_sleeper.symm.trans hu)
  exact instrumentable_sleeper

/-- What a unit that has been read becomes can't be mistaken for another unit once it's written. -/
theorem eq_of_decode_instrument {v : CompiledUnit} (hu : u.Encodable)
    (room : ¬ u.StaysSame settings → u.HasRoom) (h : u.instrument settings = .ok (n, u'))
    (hv : decode u'.encode = .ok v) : v = u' := by
  rcases instrument_cases h with ⟨-, rfl, -⟩ | ⟨hn, hname, -, hmethods⟩
  · exact Except.ok.inj (hv.symm.trans (decode_eq_ok.2 ⟨hu, spells_encode _⟩))
  · have hroom : u.HasRoom := room fun hsame => hn (by
      have hzero := h.symm.trans hsame.instrument_eq
      cases hzero
      rfl)
    refine eq_of_decode_encode (hname ▸ hu.name) (hmethods.length_eq ▸ hu.methods.1)
      (fun d' hd' => ?_) hv
    obtain ⟨d, hmem, hd⟩ := exists_mem_of_forall₂ hmethods hd'
    have hd₀ := hu.methods.2 d hmem
    by_cases hneeds : d.needsInstrumentation
    · obtain ⟨hlast, hcountable⟩ := hroom d hmem hneeds
      have hcount := hcountable d' hd
      exact Decoder.unmistakable_method (Method.encodableWith_of_instrument hd₀ hlast hd hneeds
        hcount.instructions hcount.named hcount.entries)
    · obtain rfl : d = d' := Except.ok.inj
        ((Method.instrument_of_no_need (by simpa using hneeds)).symm.trans hd)
      exact Decoder.method_reads.unmistakable hd₀

/-- Bytes that have been instrumented and verified are read as the unit that was made, and loaded,
and stay the same when they're instrumented again. -/
theorem instrumentBytes_again {bytes o : Bytes} {reinstrument : Bool}
    (h : instrumentBytes ⟨reinstrument, true⟩ bytes = .ok o)
    (room : ∀ u, decode bytes = .ok u → ¬ u.StaysSame ⟨reinstrument, true⟩ → u.HasRoom) :
    ∃ u n u', decode bytes = .ok u ∧ u.instrument ⟨reinstrument, true⟩ = .ok (n, u') ∧
      decode o = .ok u' ∧ (∀ m : Machine, ∃ m', m.loadBytes o = .ok (u'.name, m')) ∧
      ∀ again : InstrumentSettings,
        again.reinstrument = reinstrument ∨ again.reinstrument = false →
          instrumentBytes again o = .ok o := by
  simp only [instrumentBytes] at h
  split at h
  · cases h
  rename_i u hu
  obtain ⟨⟨n, u'⟩, hmade, hwrite⟩ := Except.bind_eq_ok.1 h
  simp only [write, if_true] at hwrite
  split at hwrite
  · cases hwrite
  rename_i v hv
  obtain ⟨⟨⟩, hverified, hbytes⟩ := Except.bind_eq_ok.1 hwrite
  cases hbytes
  obtain rfl := eq_of_decode_instrument (decode_eq_ok.1 hu).1 (room u hu) hmade hv
  have hencodable := (decode_eq_ok.1 hv).1
  refine ⟨u, n, v, hu, hmade, hv, hencodable.loadBytes_encode hverified, fun again hagain => ?_⟩
  have hsame := (staysSame_of_instrument hmade hagain).instrument_eq
  simp only [instrumentBytes, hv, hsame, Except.ok_bind, hencodable.write_eq_ok hverified]

/-- The sleeper's instrumented bytes stay the same. -/
theorem instrumentBytes_again_sleeper : ∃ o n u',
    instrumentBytes ⟨true, true⟩ sleeperUnit.encode = .ok o ∧
      sleeperUnit.instrument ⟨true, true⟩ = .ok (n, u') ∧ decode o = .ok u' ∧
      instrumentBytes ⟨true, true⟩ o = .ok o ∧ instrumentBytes ⟨false, true⟩ o = .ok o := by
  obtain ⟨o, ho, -⟩ :=
    exists_instrumentBytes decode_sleeper verifyBodies_sleeper instrumentable_sleeper ⟨true, true⟩
  obtain ⟨u, n, u', hu, hmade, hread, -, hagain⟩ := instrumentBytes_again ho fun v hv _ => by
    obtain rfl := Except.ok.inj (decode_sleeper.symm.trans hv)
    exact instrumentable_sleeper.room
  obtain rfl := Except.ok.inj (decode_sleeper.symm.trans hu)
  exact ⟨o, n, u', ho, hmade, hread, hagain _ (.inl rfl), hagain _ (.inr rfl)⟩

end CompiledUnit

end Resumable
