import Resumable.Proofs.Codec

/-!
# Nothing but what's written is read back

A unit whose name holds a semicolon can be written, but its descriptors can't all be read.  If
what's written is read at all, though, then it's read as what it was, unless it's so large that the
format can't count it.
-/

namespace Resumable

namespace ValueType

/-- Types have different descriptors, whatever the names in them are. -/
theorem chars_injective {s t : ValueType} (h : s.chars = t.chars) : s = t := by
  induction s generalizing t with
  | object name =>
      cases t with
      | object name' =>
          simp only [chars, List.cons_append, List.cons.injEq, true_and, List.append_cancel_right_eq,
            String.toList_inj] at h
          rw [h]
      | _ => simp [chars] at h
  | array element ih =>
      cases t with
      | array element' => rw [ih (List.cons.inj h).2]
      | _ => simp [chars] at h
  | _ => cases t <;> simp_all [chars]

theorem text_injective {s t : ValueType} (h : s.text = t.text) : s = t := by
  rw [text, text, String.ofList_inj] at h
  exact chars_injective h

end ValueType

/-- True if nothing else with the property is read where the thing stands. -/
structure Unmistakable {α : Type} (P : α → Prop) (layout : α → Layout) (x : α) : Prop where
  eq_of_takes : ∀ {y : α} {c c₁ c₂ : ByteCursor}, P y → (layout x).Takes c c₁ →
    (layout y).Takes c c₂ → y = x ∧ c₂ = c₁

section
variable {α : Type} {P : α → Prop} {layout : α → Layout}

/-- What is read back can't be mistaken for anything else that is. -/
theorem Decoder.Reads.unmistakable {d : Decoder α} (h : d.Reads P layout) {x : α} (hx : P x) :
    Unmistakable P layout x := by
  refine ⟨fun hy hxt hyt => ?_⟩
  have hsame := (h.run_eq_ok.2 ⟨hy, hyt⟩).symm.trans (h.run_eq_ok.2 ⟨hx, hxt⟩)
  cases hsame
  exact ⟨rfl, rfl⟩

/-- What comes first can't be mistaken, and both rests start at one place. -/
theorem Unmistakable.front {x y : α} {rest rest' : Layout} {c c₁ c₂ : ByteCursor}
    (h : Unmistakable P layout x) (hy : P y) (hx : (layout x ++ rest).Takes c c₁)
    (hy' : (layout y ++ rest').Takes c c₂) : y = x ∧ ∃ d, rest.Takes d c₁ ∧ rest'.Takes d c₂ := by
  obtain ⟨d₁, hx, hrest⟩ := Layout.takes_append.1 hx
  obtain ⟨d₂, hy', hrest'⟩ := Layout.takes_append.1 hy'
  obtain ⟨hsame, rfl⟩ := h.eq_of_takes hy hx hy'
  exact ⟨hsame, _, hrest, hrest'⟩

/-- Lists of one length can be told apart by their members. -/
theorem Unmistakable.members {xs ys : List α} {c c₁ c₂ : ByteCursor}
    (h : ∀ x ∈ xs, Unmistakable P layout x) (hys : ∀ y ∈ ys, P y) (hlength : ys.length = xs.length)
    (hx : Layout.Takes (xs.flatMap layout) c c₁) (hy : Layout.Takes (ys.flatMap layout) c c₂) :
    ys = xs ∧ c₂ = c₁ := by
  induction xs generalizing ys c with
  | nil =>
      obtain rfl : ys = [] := List.eq_nil_of_length_eq_zero hlength
      exact ⟨rfl, (Layout.takes_nil.1 hy).symm.trans (Layout.takes_nil.1 hx)⟩
  | cons x xs ih =>
      cases ys with
      | nil => cases hlength
      | cons y ys =>
          rw [List.forall_mem_cons] at h hys
          obtain ⟨rfl, d, hxs, hys'⟩ := h.1.front hys.1 hx hy
          obtain ⟨rfl, rfl⟩ := ih h.2 hys.2 (Nat.succ.inj hlength) hxs hys'
          exact ⟨rfl, rfl⟩

/-- Lists can be told apart by their lengths and their members. -/
theorem Unmistakable.list {xs : List α} (hlength : xs.length < 0x100000000)
    (h : ∀ x ∈ xs, Unmistakable P layout x) :
    Unmistakable (fun ys => ys.length < 0x100000000 ∧ ∀ y ∈ ys, P y) (Layout.ofList layout) xs := by
  refine ⟨fun {ys c c₁ c₂} ⟨hlength', hys⟩ hx hy => ?_⟩
  obtain ⟨hsame, d, hx, hy⟩ := (Decoder.varInt_reads.unmistakable hlength).front hlength' hx hy
  exact Unmistakable.members h hys hsame hx hy

end

theorem unmistakable_raw (front : Bytes) :
    Unmistakable (· = front) (fun bytes => [.raw bytes]) front := by
  refine ⟨fun {y c c₁ c₂} hy hx hy' => ⟨hy, ?_⟩⟩
  subst hy
  obtain ⟨hrest, hposition⟩ := Layout.takes_raw.1 hx
  obtain ⟨hrest', hposition'⟩ := Layout.takes_raw.1 hy'
  obtain ⟨position, rest⟩ := c₁
  obtain ⟨position', rest'⟩ := c₂
  rw [hrest, List.append_cancel_left_eq] at hrest'
  dsimp only at hrest' hposition hposition'
  rw [hrest', hposition, hposition']

namespace Instruction

variable {i j : Instruction} {t : ValueType}

/-- The type that the instruction names by itself. -/
def named? : Instruction → Option ValueType
  | newArray t | checkCast t | instanceOf t => some t
  | _ => none

theorem operandLayout_of_named (h : i.named? = some t) : i.operandLayout = Layout.ofText t.text := by
  cases i <;> cases h <;> rfl

/-- Instructions of one kind that name types differ in the types only. -/
theorem named_of_opcode (h : j.opcode = i.opcode) (hi : i.named? = some t) :
    ∃ u, j.named? = some u ∧ (u = t → j = i) := by
  cases i with
  | newArray | checkCast | instanceOf =>
      cases hi
      cases j with
      | newArray u | checkCast u | instanceOf u =>
          exact ⟨u, rfl, fun heq => by cases h <;> rw [heq]⟩
      | const value => cases value <;> cases h
      | invoke kind => cases kind <;> cases h
      | leave kind => cases kind <;> cases h
      | _ => cases h
  | _ => cases hi

theorem named_of_encodable (h : i.Encodable) (hi : i.named? = some t) :
    t.HasPlainNames ∧ t.text.utf8ByteSize < 0x100000000 := by
  cases i with
  | newArray | checkCast | instanceOf =>
      cases hi
      exact ⟨h.names, h.short⟩
  | _ => cases hi

/-- True if the instruction can be written, but for a type that it names by itself, which has the
property instead. -/
def EncodableWith (P : ValueType → Prop) (i : Instruction) : Prop :=
  match i.named? with
  | some t => P t
  | none => i.Encodable

theorem EncodableWith.named {P : ValueType → Prop} (h : i.EncodableWith P) (hi : i.named? = some t) :
    P t := by
  rwa [EncodableWith, hi] at h

theorem EncodableWith.encodable (h : i.EncodableWith ValueType.Encodable) : i.Encodable := by
  cases i with
  | newArray | checkCast | instanceOf => exact h
  | _ => exact h

end Instruction

/-- True if the type has the property, if the value is a reference. -/
def FrameValue.Names (P : ValueType → Prop) (v : FrameValue) : Prop := ∀ t, v = .reference t → P t

/-- True if the frame refers to types with the property only. -/
def Frame.Names (P : ValueType → Prop) (f : Frame) : Prop :=
  (∀ v ∈ f.locals, v.Names P) ∧ ∀ v ∈ f.stack, v.Names P

/-- True if the method can be written, but for labels that aren't in order, and for the types in its
body and its stack map, which have the property instead. -/
structure Method.EncodableWith (P : ValueType → Prop) (m : Method) : Prop where
  name : m.name.utf8ByteSize < 0x100000000
  type : m.type.Encodable
  instructions : m.body.instructions.length < 0x100000000 ∧
    ∀ i ∈ m.body.instructions, i.EncodableWith P
  nextLabel : m.body = .ofList m.body.instructions
  entries : m.stackMap.length < 0x100000000 ∧ ∀ e ∈ m.stackMap,
    e.frame.locals.length < 0x100000000 ∧ e.frame.stack.length < 0x100000000 ∧ e.frame.Names P

/-- True if the format can count the bytes of the type's descriptor. -/
def ValueType.IsShort (t : ValueType) : Prop := t.text.utf8ByteSize < 0x100000000

namespace Decoder

/-- Types can be told apart, whatever the names in them are. -/
theorem unmistakable_valueType {t : ValueType} (h : t.IsShort) :
    Unmistakable (fun t => t.HasPlainNames ∧ t.text.utf8ByteSize < 0x100000000)
      (fun t => Layout.ofText t.text) t := by
  refine ⟨fun {u c c₁ c₂} hu ht hu' => ?_⟩
  obtain ⟨hsame, hc⟩ := (text_reads.unmistakable h).eq_of_takes hu.2 ht hu'
  exact ⟨ValueType.text_injective hsame, hc⟩

theorem unmistakable_frameValue {v : FrameValue} (h : v.Names ValueType.IsShort) :
    Unmistakable FrameValue.Encodable FrameValue.layout v := by
  cases v with
  | reference t =>
      refine ⟨fun {u c c₁ c₂} hu hv hu' => ?_⟩
      have hsix := byte_reads.unmistakable (x := 6) trivial
      cases u with
      | reference t' =>
          obtain ⟨-, d, hv, hu'⟩ := hsix.front (y := 6) trivial hv hu'
          obtain ⟨rfl, hc⟩ :=
            (unmistakable_valueType (h t rfl)).eq_of_takes ⟨hu.2.names, hu.2.short⟩ hv hu'
          exact ⟨rfl, hc⟩
      | _ => exact absurd (hsix.front trivial hv hu').1 (by decide)
  | _ => exact frameValue_reads.unmistakable trivial

theorem unmistakable_instruction {i : Instruction} (h : i.EncodableWith ValueType.IsShort) :
    Unmistakable Instruction.Encodable Instruction.layout i := by
  cases hi : i.named? with
  | none =>
      rw [Instruction.EncodableWith, hi] at h
      exact instruction_reads.unmistakable h
  | some t =>
      refine ⟨fun {j c c₁ c₂} hj hc hc' => ?_⟩
      obtain ⟨hsame, d, hc, hc'⟩ : j.opcode = i.opcode ∧ ∃ d, i.operandLayout.Takes d c₁ ∧
          j.operandLayout.Takes d c₂ := (opcode_reads.unmistakable trivial).front trivial hc hc'
      obtain ⟨u, hu, heq⟩ := Instruction.named_of_opcode hsame hi
      rw [Instruction.operandLayout_of_named hi] at hc
      rw [Instruction.operandLayout_of_named hu] at hc'
      obtain ⟨hut, hend⟩ := (unmistakable_valueType (h.named hi)).eq_of_takes
        (Instruction.named_of_encodable hj hu) hc hc'
      exact ⟨heq hut, hend⟩

theorem unmistakable_stackMapEntry {e : StackMapEntry} (hlocals : e.frame.locals.length < 0x100000000)
    (hstack : e.frame.stack.length < 0x100000000) (h : e.frame.Names ValueType.IsShort) :
    Unmistakable StackMapEntry.Encodable StackMapEntry.layout e := by
  have hvalues {values : List FrameValue} (hlength : values.length < 0x100000000)
      (h : ∀ v ∈ values, v.Names ValueType.IsShort) :
      Unmistakable (fun vs => vs.length < 0x100000000 ∧ ∀ v ∈ vs, FrameValue.Encodable v)
        (Layout.ofList FrameValue.layout) values :=
    .list hlength fun v hv => unmistakable_frameValue (h v hv)
  have hreversed {stack : List FrameValue} {P : FrameValue → Prop}
      (h : stack.length < 0x100000000 ∧ ∀ v ∈ stack, P v) :
      stack.reverse.length < 0x100000000 ∧ ∀ v ∈ stack.reverse, P v := by
    simpa only [List.length_reverse, List.mem_reverse] using h
  have hstack' := hreversed ⟨hstack, h.2⟩
  refine ⟨fun {e' c c₁ c₂} he' hc hc' => ?_⟩
  obtain ⟨hl, d, hc, hc'⟩ := (label_reads.unmistakable trivial).front trivial hc hc'
  obtain ⟨hls, d, hc, hc'⟩ := (hvalues hlocals h.1).front he'.locals hc hc'
  obtain ⟨hs, hend⟩ :=
    (hvalues hstack'.1 hstack'.2).eq_of_takes (hreversed he'.stack) hc hc'
  obtain ⟨label, locals, stack⟩ := e
  obtain ⟨label', locals', stack'⟩ := e'
  dsimp only at hl hls hs
  subst hl hls
  exact ⟨by rw [List.reverse_injective hs], hend⟩

theorem unmistakable_method {m : Method} (h : m.EncodableWith ValueType.IsShort) :
    Unmistakable Method.Encodable Method.layout m := by
  have hinstructions : ∀ i ∈ m.body.instructions,
      Unmistakable Instruction.Encodable Instruction.layout i := fun i hi =>
    unmistakable_instruction (h.instructions.2 i hi)
  have hentries : ∀ e ∈ m.stackMap,
      Unmistakable StackMapEntry.Encodable StackMapEntry.layout e := by
    intro e he
    obtain ⟨hlocals, hstack, hnames⟩ := h.entries.2 e he
    exact unmistakable_stackMapEntry hlocals hstack hnames
  refine ⟨fun {m' c c₁ c₂} hm' hc hc' => ?_⟩
  obtain ⟨haccess, d, hc, hc'⟩ := ((fixed_reads 2).unmistakable m.access.bits.toNat_lt).front
    m'.access.bits.toNat_lt hc hc'
  obtain ⟨hn, d, hc, hc'⟩ := (text_reads.unmistakable h.name).front hm'.name hc hc'
  obtain ⟨ht, d, hc, hc'⟩ := (methodType_reads.unmistakable ⟨h.type.names, h.type.short⟩).front
    ⟨hm'.type.names, hm'.type.short⟩ hc hc'
  obtain ⟨hs, d, hc, hc'⟩ := (index_reads.unmistakable trivial).front trivial hc hc'
  obtain ⟨hl, d, hc, hc'⟩ := (index_reads.unmistakable trivial).front trivial hc hc'
  obtain ⟨hi, d, hc, hc'⟩ :=
    (Unmistakable.list h.instructions.1 hinstructions).front hm'.instructions hc hc'
  obtain ⟨he, hend⟩ := (Unmistakable.list h.entries.1 hentries).eq_of_takes hm'.entries hc hc'
  have hb : m'.body = m.body := by rw [hm'.nextLabel, hi, ← h.nextLabel]
  have ha : m'.access = m.access := congrArg AccessFlags.mk (UInt16.toNat_inj.1 haccess)
  obtain ⟨name, type, access, maxStack, maxLocals, body, stackMap⟩ := m
  obtain ⟨name', type', access', maxStack', maxLocals', body', stackMap'⟩ := m'
  dsimp only at hn ht hs hl he hb ha
  subst hn ht hs hl he hb ha
  exact ⟨rfl, hend⟩

end Decoder

/-- Whatever is read from what's written is what was written, if its methods can't be mistaken. -/
theorem CompiledUnit.eq_of_decode_encode {u v : CompiledUnit}
    (hname : u.name.utf8ByteSize < 0x100000000) (hcount : u.methods.length < 0x100000000)
    (hmethods : ∀ m ∈ u.methods, Unmistakable Method.Encodable Method.layout m)
    (h : decode u.encode = .ok v) : v = u := by
  obtain ⟨hv, hspells⟩ := decode_eq_ok.1 h
  rw [← bytes_layout] at hspells
  have takes {layout : Layout} {bytes : Bytes} (h : layout.Spells bytes) :
      layout.Takes ⟨0, bytes⟩ ⟨bytes.length, []⟩ := ⟨bytes, h, by simp, by simp⟩
  have hc := takes u.layout.spells_bytes
  have hc' := takes hspells
  obtain ⟨-, d, hc, hc'⟩ := (unmistakable_raw Encoding.magic).front rfl hc hc'
  obtain ⟨-, d, hc, hc'⟩ := (unmistakable_raw [Encoding.version]).front rfl hc hc'
  obtain ⟨hflags, d, hc, hc'⟩ := (Decoder.byte_reads.unmistakable trivial).front trivial hc hc'
  obtain ⟨hn, d, hc, hc'⟩ := (Decoder.text_reads.unmistakable hname).front hv.name hc hc'
  obtain ⟨hm, -⟩ := (Unmistakable.list hcount hmethods).eq_of_takes hv.methods hc hc'
  obtain ⟨name, flags, methods⟩ := u
  obtain ⟨name', flags', methods'⟩ := v
  dsimp only at hflags hn hm
  subst hn hm
  rw [show flags' = flags from congrArg UnitFlags.mk hflags]

end Resumable
