import Resumable.Proofs.InstrumentedUnits

/-!
# How exact recomputed metadata is

A typing doesn't say how much room there is on the operand stack, and the analysis finds the least
typing or runs out of room.  So whatever limit a method has, the analysis finds the same frames if it
finds any.  It finds them exactly if the limit has room for them, as no instruction needs more for a
moment than it leaves or takes.

The stack map that's made of these frames agrees with them.  It has an entry for each label that's
jumped to and that execution can get to.  So with the metadata that has been computed for a method
the same metadata is computed again.
-/

namespace Resumable

theorem Frames.eq_of_at? {frames frames' : Frames} (hlength : frames.length = frames'.length)
    (h : ∀ p, frames.at? p = frames'.at? p) : frames = frames' := by
  apply List.ext_getElem hlength
  intro p hp hp'
  have hat := h p
  simpa [Frames.at?, List.getElem?_eq_getElem hp, List.getElem?_eq_getElem hp'] using hat

/-- What a stack map consists of that's made of the frames of a body: in the order of the body, one
entry for each label that some instruction may jump to and that execution can get to. -/
structure Body.Mapped (b : Body) (frames : Frames) (entries : List StackMapEntry) : Prop where
  labels : ∀ l, (∃ e ∈ entries, e.label = l) ↔
    (∃ p, b.get? p = some (.label l) ∧ b.Reaches p) ∧ ∃ p i, b.get? p = some i ∧ l ∈ i.targets
  frames : ∀ e ∈ entries, ∃ p, b.get? p = some (.label e.label) ∧ frames.at? p = some e.frame
  ordered : (entries.map (·.label)).Sublist (placed b.instructions)
  nodup : (entries.map (·.label)).Nodup

namespace Body

variable {b : Body} {frames : Frames} {entries : List StackMapEntry}

/-- The reader has nothing against the labels of such a stack map: it reads all entries. -/
theorem Mapped.read (h : b.Mapped frames entries) {places : List (Label × Nat)}
    (hplaces : b.labelPositions = .ok places) (hentries : ∀ e ∈ entries, e.Encodable)
    (method : String) {c c' : ByteCursor}
    (htakes : Layout.Takes (entries.flatMap StackMapEntry.layout) c c') :
    (Decoder.stackMap method (places.map (·.1)) [] entries.length).run c = .ok (entries, c') := by
  refine Decoder.run_stackMap_eq_ok.2 ⟨rfl, hentries, fun e he => ?_, by simp, h.nodup, htakes⟩
  rw [Decoder.map_of_labelPositions hplaces]
  exact h.ordered.subset (List.mem_map_of_mem he)

end Body

namespace Method

variable {m m' : Method} {owner : String} {frames frames' : Frames}

/-- The stack map that's computed for a method. -/
theorem Analyzed.mapped (h : m.Analyzed owner frames) :
    m.body.Mapped frames (m.body.stackMap frames) where
  labels l := by
    constructor
    · rintro ⟨⟨l', f⟩, hentry, rfl⟩
      obtain ⟨⟨p, hp, hf⟩, htarget⟩ := Body.mem_stackMap_iff.1 hentry
      exact ⟨⟨p, hp, h.reached p f hf⟩, htarget⟩
    · rintro ⟨⟨p, hp, hreaches⟩, htarget⟩
      obtain ⟨f, hf⟩ := (h.reaches_iff p).2 hreaches
      exact ⟨⟨l, f⟩, Body.mem_stackMap_iff.2 ⟨⟨p, hp, hf⟩, htarget⟩, rfl⟩
  frames e he := mem_stackMap he
  ordered := m.body.stackMap_sublist frames
  nodup := (m.body.stackMap_sublist frames).nodup (Body.labelPositions_eq_ok.1 h.labels).1

/-- What the metadata that's computed from a method's frames is like: less room wouldn't do, the
stack map agrees with the frames, and the reader gets it back. -/
structure ExactMetadata (m : Method) (owner : String) (frames : Frames) : Prop where
  enough : ∀ limit : UInt16, frames.maxStack ≤ limit.toNat →
    ({ m with maxStack := limit } : Method).analyze owner = .ok frames
  needed : ∀ limit : UInt16, limit.toNat < frames.maxStack → ∃ position,
    ({ m with maxStack := limit } : Method).analyze owner =
      .error ⟨position, .stackOverflow limit.toNat⟩
  verified : ({ m with stackMap := m.body.stackMap frames } : Method).analyze owner = .ok frames ∧
    ({ m with stackMap := m.body.stackMap frames } : Method).checkStackMap frames = .ok ()
  mapped : m.body.Mapped frames (m.body.stackMap frames)
  read : ∃ places, m.body.labelPositions = .ok places ∧ ∀ (method : String) (c c' : ByteCursor),
    (∀ e ∈ m.body.stackMap frames, e.Encodable) →
      Layout.Takes ((m.body.stackMap frames).flatMap StackMapEntry.layout) c c' →
        (Decoder.stackMap method (places.map (·.1)) [] (m.body.stackMap frames).length).run c =
          .ok (m.body.stackMap frames, c')

/-- With other metadata the analysis finds no frames above those found before. -/
theorem under_of_analyze (h : m.analyze owner = .ok frames) (h' : m'.analyze owner = .ok frames')
    (htype : m'.type = m.type) (hmax : m'.maxLocals = m.maxLocals)
    (hstatic : m'.isStatic = m.isStatic) (hbody : m'.body = m.body) :
    Progress.Under frames.at? frames' := by
  have hanalyzed := analyzed_of_analyze h
  have htyping := hanalyzed.typing.congr htype hmax hstatic hbody
  rcases htyping.analyze_cases (hbody ▸ hanalyzed.labels) with
    ⟨found, hfound, hunder⟩ | ⟨⟨position, herror⟩, -⟩
  · obtain rfl : frames' = found := Except.ok.inj (h'.symm.trans hfound)
    exact hunder
  · rw [h'] at herror
    cases herror

/-- The frames that are found don't depend on the metadata. -/
theorem frames_unique (h : m.analyze owner = .ok frames) (h' : m'.analyze owner = .ok frames')
    (htype : m'.type = m.type) (hmax : m'.maxLocals = m.maxLocals)
    (hstatic : m'.isStatic = m.isStatic) (hbody : m'.body = m.body) : frames' = frames := by
  have hbelow := under_of_analyze h h' htype hmax hstatic hbody
  have habove := under_of_analyze h' h htype.symm hmax.symm hstatic.symm hbody.symm
  apply Frames.eq_of_at?
  · rw [(analyzed_of_analyze h).length, (analyzed_of_analyze h').length, hbody]
  · intro p
    cases hf : frames.at? p with
    | some f =>
        obtain ⟨f', hf', hff'⟩ := habove p f hf
        obtain ⟨g, hg, hgf⟩ := hbelow p f' hf'
        obtain rfl : f = g := Option.some.inj (hf.symm.trans hg)
        rw [hf', hgf.antisymm hff']
    | none =>
        cases hf' : frames'.at? p with
        | none => rfl
        | some f' =>
            obtain ⟨g, hg, -⟩ := hbelow p f' hf'
            rw [hf] at hg
            cases hg

/-- With other metadata the analysis finds the same frames if there's room for them, and otherwise
the operand stack overflows. -/
theorem analyze_of_room (h : m.analyze owner = .ok frames) (m' : Method) (htype : m'.type = m.type)
    (hmax : m'.maxLocals = m.maxLocals) (hstatic : m'.isStatic = m.isStatic)
    (hbody : m'.body = m.body) :
    (frames.maxStack ≤ m'.maxStack.toNat → m'.analyze owner = .ok frames) ∧
      (m'.maxStack.toNat < frames.maxStack →
        ∃ position, m'.analyze owner = .error ⟨position, .stackOverflow m'.maxStack.toNat⟩) := by
  have hanalyzed := analyzed_of_analyze h
  have htyping := hanalyzed.typing.congr htype hmax hstatic hbody
  rcases htyping.analyze_cases (hbody ▸ hanalyzed.labels) with ⟨frames', hframes', -⟩ | ⟨herror, hover⟩
  · obtain rfl := frames_unique h hframes' htype hmax hstatic hbody
    have hroom := Frames.maxStack_le_iff.2 (analyzed_of_analyze hframes').room
    exact ⟨fun _ => hframes', fun hless => absurd hroom (Nat.not_le.2 hless)⟩
  · exact ⟨fun hroom => absurd hover (not_overflows hanalyzed hroom), fun _ => herror⟩

/-- What's recomputed is the room that the frames take and their stack map. -/
theorem recompute_of_analyze (h : m.analyze owner = .ok frames) :
    m.recompute owner = .ok { m with
      maxStack := UInt16.ofNat frames.maxStack
      stackMap := m.body.stackMap frames } := by
  have hroom := (analyzed_of_analyze h).maxStack_le
  have hframes : ({ m with maxStack := UInt16.ofNat maxSlots } : Method).analyze owner = .ok frames :=
    (analyze_of_room h { m with maxStack := UInt16.ofNat maxSlots } rfl rfl rfl rfl).1 hroom
  simp only [recompute, hframes]

/-- The metadata of a method with recomputed metadata is what would be recomputed. -/
theorem recompute_recompute (h : m.recompute owner = .ok m') : m'.recompute owner = .ok m' := by
  obtain ⟨frames, hframes, rfl⟩ := recompute_eq_ok h
  have hroom := (analyzed_of_analyze hframes).toNat_maxStack
  have hagain : ({ m with
      maxStack := UInt16.ofNat frames.maxStack
      stackMap := m.body.stackMap frames } : Method).analyze owner = .ok frames :=
    (analyze_of_room hframes { m with
      maxStack := UInt16.ofNat frames.maxStack
      stackMap := m.body.stackMap frames } rfl rfl rfl rfl).1 (Nat.le_of_eq hroom.symm)
  exact recompute_of_analyze hagain

/-- What's computed from the frames of an analyzed method is exact, it's what's recomputed, and
recomputing it again changes nothing. -/
theorem recomputed_exact (owner : String) (m : Method) :
    (∀ frames, m.analyze owner = .ok frames → m.ExactMetadata owner frames ∧
      m.recompute owner = .ok { m with
        maxStack := UInt16.ofNat frames.maxStack
        stackMap := m.body.stackMap frames }) ∧
      ∀ m', m.recompute owner = .ok m' → m'.recompute owner = .ok m' := by
  refine ⟨fun frames hframes => ?_, fun m' => recompute_recompute⟩
  have hanalyzed := analyzed_of_analyze hframes
  obtain ⟨places, hplaces⟩ := hanalyzed.labels
  have hunder : Progress.Under frames.at? frames := fun p f hf =>
    ⟨f, hf, .refl (hanalyzed.wellFormed p f hf)⟩
  refine ⟨⟨?_, ?_, ?_, ?_, ?_⟩, recompute_of_analyze hframes⟩
  · exact fun limit => (analyze_of_room hframes { m with maxStack := limit } rfl rfl rfl rfl).1
  · exact fun limit => (analyze_of_room hframes { m with maxStack := limit } rfl rfl rfl rfl).2
  · have hroom := Frames.maxStack_le_iff.2 hanalyzed.room
    exact ⟨(analyze_of_room hframes { m with stackMap := m.body.stackMap frames }
      rfl rfl rfl rfl).1 hroom, checkStackMap_of_under hanalyzed.labels rfl hunder⟩
  · exact hanalyzed.mapped
  · exact ⟨places, hplaces, fun method c c' hentries htakes =>
      hanalyzed.mapped.read hplaces hentries method htakes⟩

/-- The sleeper needs one slot, and that's all it needs. -/
theorem recomputed_exact_sleeper :
    sleeper.analyze "Demo" = .ok sleeperFrames ∧ sleeperFrames.maxStack = 1 ∧
      (∃ position, ({ sleeper with maxStack := 0 } : Method).analyze "Demo" =
        .error ⟨position, .stackOverflow 0⟩) ∧
      sleeper.recompute "Demo" = .ok { sleeper with
        stackMap := [⟨⟨0⟩, ⟨[Snapshot.capabilityValue], []⟩⟩] } := by
  have hexact := (recomputed_exact "Demo" sleeper).1 sleeperFrames analyze_sleeper
  have hmap : sleeper.body.stackMap sleeperFrames = [⟨⟨0⟩, ⟨[Snapshot.capabilityValue], []⟩⟩] := rfl
  exact ⟨analyze_sleeper, rfl, hexact.1.needed 0 (by decide), hmap ▸ hexact.2⟩

end Method

end Resumable
