import Resumable.Proofs.Labels
import Resumable.Proofs.Reading

/-!
# Writing and reading units

Units that can be written are those whose descriptors can be told apart, whose texts and lists have
lengths that the format can count, and whose labels are in order.  `CompiledUnit.decode_eq_ok` says
that the bytes from which a unit is read are those that spell its layout, and that only units that
can be written are read.  So what's written is read back, and it's the shortest of all byte strings
from which that unit is read.
-/

namespace Resumable

/-- The descriptor can be told apart and counted. -/
structure ValueType.Encodable (t : ValueType) : Prop where
  names : t.HasPlainNames
  short : t.text.utf8ByteSize < 0x100000000

/-- The descriptor can be told apart and counted. -/
structure MethodType.Encodable (t : MethodType) : Prop where
  names : t.HasPlainNames
  short : t.text.utf8ByteSize < 0x100000000

structure MethodRef.Encodable (m : MethodRef) : Prop where
  owner : m.owner.utf8ByteSize < 0x100000000
  name : m.name.utf8ByteSize < 0x100000000
  type : m.type.Encodable

namespace Instruction

/-- The instruction's texts and lists can be counted and its descriptors told apart. -/
def Encodable : Instruction → Prop
  | const (.string s) => s.utf8ByteSize < 0x100000000
  | tableSwitch _ _ targets => targets.length < 0x100000000
  | lookupSwitch _ cases => cases.length < 0x100000000
  | invoke _ m => m.Encodable
  | newArray t | checkCast t | instanceOf t => t.Encodable
  | _ => True

/-- What follows the instruction's opcode. -/
def operandLayout : Instruction → Layout
  | .label l | .goto l | .jumpSubroutine l => Layout.ofLabel l
  | .const (.int n) => [.raw (Encoding.int n)]
  | .const (.long n) => [.raw (Encoding.littleEndian 8 n.toUInt64.toNat)]
  | .const (.float word) => [.raw (Encoding.littleEndian 4 word.toNat)]
  | .const (.double word) => [.raw (Encoding.littleEndian 8 word.toNat)]
  | .const (.string s) => Layout.ofText s
  | .load kind i | .store kind i => .raw [kind.byte] :: Layout.ofIndex i
  | .increment i delta => Layout.ofIndex i ++ [.raw (Encoding.littleEndian 2 delta.toUInt16.toNat)]
  | .binary op kind => [.raw [op.byte], .raw [kind.byte]]
  | .convert source target => [.raw [source.byte], .raw [target.byte]]
  | .compare kind nanIsGreater => [.raw [kind.byte], .raw [Encoding.flag nanIsGreater]]
  | .ifZero condition l | .ifCompare condition l => .raw [condition.byte] :: Layout.ofLabel l
  | .ifSame b l | .ifNull b l => .raw [Encoding.flag b] :: Layout.ofLabel l
  | .returnSubroutine i => Layout.ofIndex i
  | .tableSwitch low otherwise targets =>
    .raw (Encoding.int low) :: Layout.ofLabel otherwise ++ Layout.ofList Layout.ofLabel targets
  | .lookupSwitch otherwise cases => Layout.ofLabel otherwise ++ Layout.ofList Layout.ofCase cases
  | .invoke _ m => Layout.ofText m.owner ++ (Layout.ofText m.name ++ Layout.ofText m.type.text)
  | .newArray type | .checkCast type | .instanceOf type => Layout.ofText type.text
  | .negate kind => [.raw [kind.byte]]
  | .arrayLoad kind | .arrayStore kind | .leave (some kind) => [.raw [kind.byte]]
  | _ => []

def layout (i : Instruction) : Layout := .raw [i.opcode.byte] :: i.operandLayout

theorem bytes_layout (i : Instruction) : i.layout.bytes = Encoding.instruction i := by
  cases i with
  | const c => cases c <;> simp [layout, operandLayout, Encoding.instruction, Encoding.operands,
      Layout.bytes_ofText]
  | leave kind => cases kind <;> simp [layout, operandLayout, Encoding.instruction,
      Encoding.operands]
  | _ => simp [layout, operandLayout, Encoding.instruction, Encoding.operands, Encoding.valueType,
      Encoding.methodType, Layout.bytes_ofText, Layout.bytes_ofList, Layout.bytes_ofLabel,
      Layout.bytes_ofIndex, Layout.bytes_ofCase]

end Instruction

namespace FrameValue

/-- References are to object or array types. -/
def Encodable : FrameValue → Prop
  | reference t => t.isReference ∧ t.Encodable
  | _ => True

def layout : FrameValue → Layout
  | .top => [.raw [0]]
  | .int => [.raw [1]]
  | .float => [.raw [2]]
  | .long => [.raw [3]]
  | .double => [.raw [4]]
  | .null => [.raw [5]]
  | .reference t => .raw [6] :: Layout.ofText t.text

theorem bytes_layout (v : FrameValue) : v.layout.bytes = Encoding.frameValue v := by
  cases v <;> simp [layout, Encoding.frameValue, Encoding.valueType, Layout.bytes_ofText]

end FrameValue

namespace StackMapEntry

structure Encodable (e : StackMapEntry) : Prop where
  locals : e.frame.locals.length < 0x100000000 ∧ ∀ v ∈ e.frame.locals, v.Encodable
  stack : e.frame.stack.length < 0x100000000 ∧ ∀ v ∈ e.frame.stack, v.Encodable

def layout (e : StackMapEntry) : Layout :=
  Layout.ofLabel e.label ++ (Layout.ofList FrameValue.layout e.frame.locals ++
    Layout.ofList FrameValue.layout e.frame.stack.reverse)

theorem bytes_layout (e : StackMapEntry) : e.layout.bytes = Encoding.stackMapEntry e := by
  simp [layout, Encoding.stackMapEntry, Layout.bytes_ofLabel, Layout.bytes_ofList,
    FrameValue.bytes_layout]

end StackMapEntry

namespace Method

/-- The method's descriptors can be told apart, its texts and lists counted, its labels are in
order, and its stack map has entries for different labels of the body. -/
structure Encodable (m : Method) : Prop where
  name : m.name.utf8ByteSize < 0x100000000
  type : m.type.Encodable
  instructions : m.body.instructions.length < 0x100000000 ∧
    ∀ i ∈ m.body.instructions, i.Encodable
  nextLabel : m.body = Body.ofList m.body.instructions
  placedOnce : (Body.placed m.body.instructions).Nodup
  targetsPlaced : ∀ i ∈ m.body.instructions, ∀ l ∈ i.targets, l ∈ Body.placed m.body.instructions
  entries : m.stackMap.length < 0x100000000 ∧ ∀ e ∈ m.stackMap, e.Encodable
  entriesPlaced : ∀ e ∈ m.stackMap, e.label ∈ Body.placed m.body.instructions
  entriesDistinct : (m.stackMap.map (·.label)).Nodup

def layout (m : Method) : Layout :=
  .raw (Encoding.littleEndian 2 m.access.bits.toNat) :: (Layout.ofText m.name ++
    (Layout.ofText m.type.text ++ (Layout.ofIndex m.maxStack ++ (Layout.ofIndex m.maxLocals ++
      (Layout.ofList Instruction.layout m.body.instructions ++
        Layout.ofList StackMapEntry.layout m.stackMap)))))

theorem bytes_layout (m : Method) : m.layout.bytes = Encoding.method m := by
  simp [layout, Encoding.method, Encoding.methodType, Layout.bytes_ofText, Layout.bytes_ofIndex,
    Layout.bytes_ofList, Instruction.bytes_layout, StackMapEntry.bytes_layout]

end Method

namespace CompiledUnit

structure Encodable (u : CompiledUnit) : Prop where
  name : u.name.utf8ByteSize < 0x100000000
  methods : u.methods.length < 0x100000000 ∧ ∀ m ∈ u.methods, m.Encodable

def layout (u : CompiledUnit) : Layout :=
  .raw Encoding.magic :: .raw [Encoding.version] :: .raw [u.flags.bits] ::
    (Layout.ofText u.name ++ Layout.ofList Method.layout u.methods)

theorem bytes_layout (u : CompiledUnit) : u.layout.bytes = u.encode := by
  simp [layout, encode, Layout.bytes_ofText, Layout.bytes_ofList, Method.bytes_layout]

end CompiledUnit

namespace Decoder

variable {c c' : ByteCursor}

theorem methodRef_reads : methodRef.Reads MethodRef.Encodable fun m =>
    Layout.ofText m.owner ++ (Layout.ofText m.name ++ Layout.ofText m.type.text) := by
  refine ⟨fun {m c c'} => ?_⟩
  rw [methodRef, text_reads.run_map₃_eq_ok text_reads methodType_reads]
  constructor
  · rintro ⟨owner, name, type, rfl, howner, hname, htype, htakes⟩
    exact ⟨⟨howner, hname, ⟨htype.1, htype.2⟩⟩, htakes⟩
  · rintro ⟨⟨howner, hname, htype⟩, htakes⟩
    exact ⟨_, _, _, rfl, howner, hname, ⟨htype.names, htype.short⟩, htakes⟩

theorem switchCase_reads : switchCase.Reads (fun _ => True) Layout.ofCase := by
  refine ⟨fun {x c c'} => ?_⟩
  rw [switchCase, int_reads.run_map₂_eq_ok label_reads]
  constructor
  · rintro ⟨key, l, rfl, -, -, h⟩
    exact ⟨trivial, h⟩
  · rintro ⟨-, h⟩
    exact ⟨x.1, x.2, rfl, trivial, trivial, h⟩

/-- What's read after an opcode is an instruction that starts with it, and can be written. -/
theorem sound_operands {o : Opcode} {i : Instruction} (h : (operands o).run c = .ok (i, c')) :
    i.opcode = o ∧ i.Encodable ∧ i.operandLayout.Takes c c' := by
  cases o with
  | nop | constNull | pop | pop2 | dup | dupX1 | dupX2 | dup2 | swap | arrayLength | throw
  | monitorEnter | monitorExit | leaveVoid =>
      obtain ⟨rfl, rfl⟩ := run_pure_eq_ok.1 h
      exact ⟨rfl, trivial, Layout.takes_nil.2 rfl⟩
  | label | goto | jumpSubroutine =>
      obtain ⟨l, rfl, -, h⟩ := label_reads.run_map_eq_ok.1 h
      exact ⟨rfl, trivial, h⟩
  | constInt =>
      obtain ⟨n, rfl, -, h⟩ := int_reads.run_map_eq_ok.1 h
      exact ⟨rfl, trivial, h⟩
  | constLong =>
      obtain ⟨n, rfl, hn, h⟩ := (fixed_reads 8).run_map_eq_ok.1 h
      refine ⟨rfl, trivial, ?_⟩
      rwa [Instruction.operandLayout, UInt64.toUInt64_toInt64, UInt64.toNat_ofNat_of_lt' hn]
  | constFloat =>
      obtain ⟨n, rfl, hn, h⟩ := (fixed_reads 4).run_map_eq_ok.1 h
      refine ⟨rfl, trivial, ?_⟩
      rwa [Instruction.operandLayout, UInt32.toNat_ofNat_of_lt' hn]
  | constDouble =>
      obtain ⟨n, rfl, hn, h⟩ := (fixed_reads 8).run_map_eq_ok.1 h
      refine ⟨rfl, trivial, ?_⟩
      rwa [Instruction.operandLayout, UInt64.toNat_ofNat_of_lt' hn]
  | constString =>
      obtain ⟨s, rfl, hs, h⟩ := text_reads.run_map_eq_ok.1 h
      exact ⟨rfl, hs, h⟩
  | load | store =>
      obtain ⟨kind, i, rfl, -, -, h⟩ := (valueKind_reads.run_map₂_eq_ok index_reads).1 h
      exact ⟨rfl, trivial, h⟩
  | increment =>
      obtain ⟨i, n, rfl, -, hn, h⟩ := (index_reads.run_map₂_eq_ok (fixed_reads 2)).1 h
      refine ⟨rfl, trivial, ?_⟩
      rwa [Instruction.operandLayout, UInt16.toUInt16_toInt16, UInt16.toNat_ofNat_of_lt' hn]
  | binary =>
      obtain ⟨op, kind, rfl, -, -, h⟩ := (binaryOp_reads.run_map₂_eq_ok numericKind_reads).1 h
      exact ⟨rfl, trivial, h⟩
  | negate =>
      obtain ⟨kind, rfl, -, h⟩ := numericKind_reads.run_map_eq_ok.1 h
      exact ⟨rfl, trivial, h⟩
  | convert =>
      obtain ⟨source, target, rfl, -, -, h⟩ :=
        (numericKind_reads.run_map₂_eq_ok numericKind_reads).1 h
      exact ⟨rfl, trivial, h⟩
  | compare =>
      obtain ⟨kind, greater, rfl, -, -, h⟩ := (numericKind_reads.run_map₂_eq_ok flag_reads).1 h
      exact ⟨rfl, trivial, h⟩
  | ifZero | ifCompare =>
      obtain ⟨condition, l, rfl, -, -, h⟩ := (condition_reads.run_map₂_eq_ok label_reads).1 h
      exact ⟨rfl, trivial, h⟩
  | ifSame | ifNull =>
      obtain ⟨b, l, rfl, -, -, h⟩ := (flag_reads.run_map₂_eq_ok label_reads).1 h
      exact ⟨rfl, trivial, h⟩
  | returnSubroutine =>
      obtain ⟨i, rfl, -, h⟩ := index_reads.run_map_eq_ok.1 h
      exact ⟨rfl, trivial, h⟩
  | tableSwitch =>
      obtain ⟨low, l, targets, rfl, -, -, ⟨htargets, -⟩, h⟩ :=
        (int_reads.run_map₃_eq_ok label_reads label_reads.list).1 h
      exact ⟨rfl, htargets, h⟩
  | lookupSwitch =>
      obtain ⟨l, cases, rfl, -, ⟨hcases, -⟩, h⟩ :=
        (label_reads.run_map₂_eq_ok switchCase_reads.list).1 h
      exact ⟨rfl, hcases, h⟩
  | invokeStatic | invokeVirtual =>
      obtain ⟨m, rfl, hm, h⟩ := methodRef_reads.run_map_eq_ok.1 h
      exact ⟨rfl, hm, h⟩
  | newArray | checkCast | instanceOf =>
      obtain ⟨t, rfl, ht, h⟩ := valueType_reads.run_map_eq_ok.1 h
      exact ⟨rfl, ⟨ht.1, ht.2⟩, h⟩
  | arrayLoad | arrayStore | leave =>
      obtain ⟨kind, rfl, -, h⟩ := valueKind_reads.run_map_eq_ok.1 h
      exact ⟨rfl, trivial, h⟩

/-- Operands that can be written are read after the instruction's opcode. -/
theorem complete_operands {i : Instruction} (hi : i.Encodable) (h : i.operandLayout.Takes c c') :
    (operands i.opcode).run c = .ok (i, c') := by
  cases i with
  | nop | pop | pop2 | dup | dupX1 | dupX2 | dup2 | swap | arrayLength | throw | monitorEnter
  | monitorExit => exact run_pure_eq_ok.2 ⟨rfl, Layout.takes_nil.1 h⟩
  | const value =>
      cases value with
      | null => exact run_pure_eq_ok.2 ⟨rfl, Layout.takes_nil.1 h⟩
      | int n => exact int_reads.run_map_eq_ok.2 ⟨n, rfl, trivial, h⟩
      | long n =>
          refine (fixed_reads 8).run_map_eq_ok.2 ⟨_, ?_, n.toUInt64.toNat_lt, h⟩
          rw [UInt64.ofNat_toNat, Int64.toInt64_toUInt64]
      | float word =>
          refine (fixed_reads 4).run_map_eq_ok.2 ⟨_, ?_, word.toNat_lt, h⟩
          rw [UInt32.ofNat_toNat]
      | double word =>
          refine (fixed_reads 8).run_map_eq_ok.2 ⟨_, ?_, word.toNat_lt, h⟩
          rw [UInt64.ofNat_toNat]
      | string s => exact text_reads.run_map_eq_ok.2 ⟨s, rfl, hi, h⟩
  | label l | goto l | jumpSubroutine l =>
      exact label_reads.run_map_eq_ok.2 ⟨l, rfl, trivial, h⟩
  | load kind i | store kind i =>
      exact (valueKind_reads.run_map₂_eq_ok index_reads).2 ⟨kind, i, rfl, trivial, trivial, h⟩
  | increment i delta =>
      refine (index_reads.run_map₂_eq_ok (fixed_reads 2)).2
        ⟨i, _, ?_, trivial, delta.toUInt16.toNat_lt, h⟩
      rw [UInt16.ofNat_toNat, Int16.toInt16_toUInt16]
  | binary op kind =>
      exact (binaryOp_reads.run_map₂_eq_ok numericKind_reads).2
        ⟨op, kind, rfl, trivial, trivial, h⟩
  | negate kind => exact numericKind_reads.run_map_eq_ok.2 ⟨kind, rfl, trivial, h⟩
  | convert source target =>
      exact (numericKind_reads.run_map₂_eq_ok numericKind_reads).2
        ⟨source, target, rfl, trivial, trivial, h⟩
  | compare kind greater =>
      exact (numericKind_reads.run_map₂_eq_ok flag_reads).2 ⟨kind, greater, rfl, trivial, trivial, h⟩
  | ifZero condition l | ifCompare condition l =>
      exact (condition_reads.run_map₂_eq_ok label_reads).2
        ⟨condition, l, rfl, trivial, trivial, h⟩
  | ifSame b l | ifNull b l =>
      exact (flag_reads.run_map₂_eq_ok label_reads).2 ⟨b, l, rfl, trivial, trivial, h⟩
  | returnSubroutine i => exact index_reads.run_map_eq_ok.2 ⟨i, rfl, trivial, h⟩
  | tableSwitch low l targets =>
      exact (int_reads.run_map₃_eq_ok label_reads label_reads.list).2
        ⟨low, l, targets, rfl, trivial, trivial, ⟨hi, fun _ _ => trivial⟩, h⟩
  | lookupSwitch l cases =>
      exact (label_reads.run_map₂_eq_ok switchCase_reads.list).2
        ⟨l, cases, rfl, trivial, ⟨hi, fun _ _ => trivial⟩, h⟩
  | invoke kind m =>
      cases kind with
      | static | virtual => exact methodRef_reads.run_map_eq_ok.2 ⟨m, rfl, hi, h⟩
  | newArray t | checkCast t | instanceOf t =>
      exact valueType_reads.run_map_eq_ok.2 ⟨t, rfl, ⟨hi.names, hi.short⟩, h⟩
  | arrayLoad kind | arrayStore kind =>
      exact valueKind_reads.run_map_eq_ok.2 ⟨kind, rfl, trivial, h⟩
  | leave kind =>
      cases kind with
      | none => exact run_pure_eq_ok.2 ⟨rfl, Layout.takes_nil.1 h⟩
      | some kind => exact valueKind_reads.run_map_eq_ok.2 ⟨kind, rfl, trivial, h⟩

theorem instruction_reads : instruction.Reads Instruction.Encodable Instruction.layout := by
  refine ⟨fun {i c c'} => ?_⟩
  rw [instruction, run_bind_eq_ok, Instruction.layout, Layout.takes_cons]
  simp only [opcode_reads.run_eq_ok, true_and]
  constructor
  · rintro ⟨o, c₁, ho, h⟩
    obtain ⟨rfl, hi, htakes⟩ := sound_operands h
    exact ⟨hi, c₁, ho, htakes⟩
  · rintro ⟨hi, c₁, ho, htakes⟩
    exact ⟨_, c₁, ho, complete_operands hi htakes⟩

theorem frameValue_reads : frameValue.Reads FrameValue.Encodable FrameValue.layout := by
  refine ⟨fun {v c c'} => ?_⟩
  simp only [frameValue, run_bind_eq_ok, run_position_eq_ok, byte_reads.run_eq_ok, true_and]
  constructor
  · rintro ⟨start, _, ⟨rfl, rfl⟩, b, c₁, hb, h⟩
    split at h
    case h_7 =>
        obtain ⟨t, c₂, ht, h⟩ := run_bind_eq_ok.1 h
        obtain ⟨⟨hnames, hshort⟩, htakes⟩ := valueType_reads.run_eq_ok.1 ht
        split at h
        · rename_i href
          obtain ⟨rfl, rfl⟩ := run_pure_eq_ok.1 h
          exact ⟨⟨href, hnames, hshort⟩, Layout.takes_cons.2 ⟨c₁, hb, htakes⟩⟩
        · exact (run_throw_eq_ok.1 h).elim
    case h_8 => exact (run_throw_eq_ok.1 h).elim
    all_goals
      obtain ⟨rfl, rfl⟩ := run_pure_eq_ok.1 h
      exact ⟨trivial, hb⟩
  · rintro ⟨hv, htakes⟩
    cases v with
    | reference t =>
        obtain ⟨href, hnames, hshort⟩ := hv
        obtain ⟨c₁, hb, htakes⟩ := Layout.takes_cons.1 htakes
        refine ⟨_, _, ⟨rfl, rfl⟩, 6, c₁, hb, run_bind_eq_ok.2
          ⟨t, c', valueType_reads.run_eq_ok.2 ⟨⟨hnames, hshort⟩, htakes⟩, ?_⟩⟩
        rw [if_pos href]
        exact run_pure_eq_ok.2 ⟨rfl, rfl⟩
    | _ => exact ⟨_, _, ⟨rfl, rfl⟩, _, c', htakes, run_pure_eq_ok.2 ⟨rfl, rfl⟩⟩

theorem stackMapEntry_reads :
    stackMapEntry.Reads StackMapEntry.Encodable StackMapEntry.layout := by
  refine ⟨fun {e c c'} => ?_⟩
  rw [stackMapEntry, label_reads.run_map₃_eq_ok frameValue_reads.list frameValue_reads.list]
  constructor
  · rintro ⟨l, locals, stack, rfl, -, hlocals, ⟨hlength, hstack⟩, h⟩
    refine ⟨⟨hlocals, by rwa [List.length_reverse], ?_⟩, ?_⟩
    · simpa only [List.mem_reverse] using hstack
    · rwa [StackMapEntry.layout, List.reverse_reverse]
  · rintro ⟨⟨hlocals, hlength, hstack⟩, h⟩
    refine ⟨_, _, e.frame.stack.reverse, ?_, trivial, hlocals, ⟨?_, ?_⟩, h⟩
    · rw [List.reverse_reverse]
    · rwa [List.length_reverse]
    · simpa only [List.mem_reverse] using hstack

/-- The entries of a stack map are for different labels among the placed ones. -/
theorem run_stackMap_eq_ok {method : String} {placed seen : List Label} {n : Nat}
    {es : List StackMapEntry} :
    (stackMap method placed seen n).run c = .ok (es, c') ↔
      es.length = n ∧ (∀ e ∈ es, e.Encodable) ∧ (∀ e ∈ es, e.label ∈ placed) ∧
        (∀ e ∈ es, e.label ∉ seen) ∧ (es.map (·.label)).Nodup ∧
          Layout.Takes (es.flatMap StackMapEntry.layout) c c' := by
  induction n generalizing seen es c c' with
  | zero =>
      rw [stackMap, run_pure_eq_ok, List.length_eq_zero_iff]
      constructor
      · rintro ⟨rfl, rfl⟩
        simp
      · rintro ⟨rfl, -, -, -, -, h⟩
        exact ⟨rfl, Layout.takes_nil.1 h⟩
  | succ n ih =>
      simp only [stackMap, run_bind_eq_ok, stackMapEntry_reads.run_eq_ok, run_check_eq_ok,
        run_pure_eq_ok, Decidable.not_not, ih]
      constructor
      · rintro ⟨e, c₁, ⟨he, htakes⟩, hplaced, hseen, es, _,
          ⟨rfl, hes, hplaced', hseen', hnodup, htakes'⟩, rfl, rfl⟩
        refine ⟨rfl, List.forall_mem_cons.2 ⟨he, hes⟩, List.forall_mem_cons.2 ⟨hplaced, hplaced'⟩,
          List.forall_mem_cons.2 ⟨hseen, fun x hx hmem => hseen' x hx (List.mem_cons_of_mem _ hmem)⟩,
          List.nodup_cons.2 ⟨?_, hnodup⟩, Layout.takes_append.2 ⟨c₁, htakes, htakes'⟩⟩
        intro hmem
        obtain ⟨x, hx, hlabel⟩ := List.mem_map.1 hmem
        exact hseen' x hx (hlabel ▸ List.mem_cons_self)
      · rintro ⟨hlength, hes, hplaced, hseen, hnodup, htakes⟩
        cases es with
        | nil => cases hlength
        | cons e es =>
            obtain ⟨he, hes⟩ := List.forall_mem_cons.1 hes
            obtain ⟨hplaced, hplaced'⟩ := List.forall_mem_cons.1 hplaced
            obtain ⟨hseen, hseen'⟩ := List.forall_mem_cons.1 hseen
            obtain ⟨hnotMem, hnodup⟩ := List.nodup_cons.1 hnodup
            obtain ⟨c₁, htakes, htakes'⟩ := Layout.takes_append.1 htakes
            refine ⟨e, c₁, ⟨he, htakes⟩, hplaced, hseen, es, c',
              ⟨Nat.succ.inj hlength, hes, hplaced', ?_, hnodup, htakes'⟩, rfl, rfl⟩
            intro x hx hmem
            rcases List.mem_cons.1 hmem with hlabel | hmem
            · exact hnotMem (List.mem_map.2 ⟨x, hx, hlabel⟩)
            · exact hseen' x hx hmem

theorem map_of_labelPositions {b : Body} {places : List (Label × Nat)}
    (h : b.labelPositions = .ok places) : places.map (·.1) = Body.placed b.instructions := by
  simp only [Body.labelPositions] at h
  split at h
  · cases h
  · split at h
    · cases h
    · cases h
      exact Body.map_placesFrom 0 b.instructions

theorem method_reads : method.Reads Method.Encodable Method.layout := by
  refine ⟨fun {m c c'} => ?_⟩
  simp only [method, run_bind_eq_ok, (fixed_reads 2).run_eq_ok, text_reads.run_eq_ok,
    methodType_reads.run_eq_ok, index_reads.run_eq_ok, instruction_reads.list.run_eq_ok, true_and]
  constructor
  · rintro ⟨access, c₁, ⟨haccess, h₁⟩, name, c₂, ⟨hname, h₂⟩, type, c₃, ⟨htype, h₃⟩, maxStack, c₄,
      h₄, maxLocals, c₅, h₅, is, c₆, ⟨⟨hlength, his⟩, h₆⟩, h⟩
    split at h
    · exact (run_throw_eq_ok.1 h).elim
    · rename_i places hplaces
      simp only [run_bind_eq_ok, varInt_reads.run_eq_ok, run_stackMap_eq_ok, run_pure_eq_ok,
        map_of_labelPositions hplaces] at h
      obtain ⟨n, c₇, ⟨hn, h₇⟩, es, c₈, ⟨rfl, hes, hplaced, -, hnodup, h₈⟩, rfl, rfl⟩ := h
      obtain ⟨honce, htargets⟩ := Body.labelPositions_eq_ok.1 ⟨places, hplaces⟩
      refine ⟨⟨hname, ⟨htype.1, htype.2⟩, ⟨hlength, his⟩, rfl, honce, htargets, ⟨hn, hes⟩, hplaced,
        hnodup⟩, Layout.takes_cons.2 ⟨c₁, ?_, ?_⟩⟩
      · rwa [UInt16.toNat_ofNat_of_lt' haccess]
      · simp only [Layout.takes_append]
        exact ⟨c₂, h₂, c₃, h₃, c₄, h₄, c₅, h₅, c₆, h₆, Layout.takes_cons.2 ⟨c₇, h₇, h₈⟩⟩
  · rintro ⟨hm, htakes⟩
    obtain ⟨c₁, h₁, htakes⟩ := Layout.takes_cons.1 htakes
    simp only [Layout.takes_append] at htakes
    obtain ⟨c₂, h₂, c₃, h₃, c₄, h₄, c₅, h₅, c₆, h₆, htakes⟩ := htakes
    obtain ⟨c₇, h₇, h₈⟩ := Layout.takes_cons.1 htakes
    refine ⟨_, c₁, ⟨m.access.bits.toNat_lt, h₁⟩, _, c₂, ⟨hm.name, h₂⟩, _, c₃,
      ⟨⟨hm.type.names, hm.type.short⟩, h₃⟩, _, c₄, h₄, _, c₅, h₅, _, c₆, ⟨hm.instructions, h₆⟩, ?_⟩
    rw [← hm.nextLabel]
    obtain ⟨places, hplaces⟩ := Body.labelPositions_eq_ok.2 ⟨hm.placedOnce, hm.targetsPlaced⟩
    rw [hplaces]
    simp only [run_bind_eq_ok, varInt_reads.run_eq_ok, run_stackMap_eq_ok, run_pure_eq_ok,
      map_of_labelPositions hplaces]
    exact ⟨_, c₇, ⟨hm.entries.1, h₇⟩, _, c', ⟨rfl, hm.entries.2, hm.entriesPlaced, by simp,
      hm.entriesDistinct, h₈⟩, by rw [UInt16.ofNat_toNat], rfl⟩

theorem unit_reads : unit.Reads CompiledUnit.Encodable CompiledUnit.layout := by
  refine ⟨fun {u c c'} => ?_⟩
  simp only [unit, run_bind_eq_ok, run_get_eq_ok]
  constructor
  · rintro ⟨_, _, ⟨rfl, rfl⟩, h⟩
    split at h
    · exact (run_throw_eq_ok.1 h).elim
    · rename_i front rest hsplit
      obtain ⟨hlength, hrest⟩ := split?_eq_some.1 hsplit
      simp only [run_check_eq_ok, run_bind_eq_ok, run_set_eq_ok, byte_reads.run_eq_ok,
        text_reads.run_eq_ok, method_reads.list.run_eq_ok, run_pure_eq_ok, true_and,
        Decidable.not_not] at h
      obtain ⟨rfl, -, c₁, rfl, version, c₂, h₂, rfl, flags, c₃, h₃, name, c₄, ⟨hname, h₄⟩, ms, c₅,
        ⟨hms, h₅⟩, rfl, rfl⟩ := h
      refine ⟨⟨hname, hms⟩, Layout.takes_cons.2 ⟨_, Layout.takes_raw.2 ⟨hrest, rfl⟩,
        Layout.takes_cons.2 ⟨c₂, h₂, Layout.takes_cons.2 ⟨c₃, h₃, ?_⟩⟩⟩⟩
      exact Layout.takes_append.2 ⟨c₄, h₄, h₅⟩
  · rintro ⟨hu, htakes⟩
    obtain ⟨c₁, h₁, htakes⟩ := Layout.takes_cons.1 htakes
    obtain ⟨c₂, h₂, htakes⟩ := Layout.takes_cons.1 htakes
    obtain ⟨c₃, h₃, htakes⟩ := Layout.takes_cons.1 htakes
    obtain ⟨c₄, h₄, h₅⟩ := Layout.takes_append.1 htakes
    obtain ⟨hrest, hposition⟩ := Layout.takes_raw.1 h₁
    have hsplit : split? 4 c.rest = some (Encoding.magic, c₁.rest) :=
      split?_eq_some.2 ⟨rfl, hrest⟩
    have hc₁ : ByteCursor.mk (c.position + 4) c₁.rest = c₁ := by
      rw [show c.position + 4 = c₁.position from hposition.symm]
    refine ⟨c, c, ⟨rfl, rfl⟩, ?_⟩
    rw [hsplit]
    simp only [run_check_eq_ok, run_bind_eq_ok, run_set_eq_ok, byte_reads.run_eq_ok,
      text_reads.run_eq_ok, method_reads.list.run_eq_ok, run_pure_eq_ok, true_and,
      Decidable.not_not]
    exact ⟨⟨⟩, c₁, hc₁, _, c₂, h₂, rfl, _, c₃, h₃, _, c₄, ⟨hu.name, h₄⟩, _, c',
      ⟨hu.methods, h₅⟩, rfl, rfl⟩

end Decoder

namespace CompiledUnit

variable {u : CompiledUnit} {bytes : Bytes}

/-- A unit is read from the bytes that spell its layout, if it can be written. -/
theorem decode_eq_ok : decode bytes = .ok u ↔ u.Encodable ∧ u.layout.Spells bytes := by
  rw [decode, Except.bind_eq_ok]
  simp only [Prod.exists, Decoder.unit_reads.run_eq_ok]
  constructor
  · rintro ⟨_, c, ⟨hu, spelling, hspelling, hrest, -⟩, h⟩
    split at h
    · rename_i hnil
      cases h
      rw [hnil, List.append_nil] at hrest
      exact ⟨hu, by rwa [show bytes = spelling from hrest]⟩
    · cases h
  · rintro ⟨hu, hspelling⟩
    refine ⟨u, ⟨bytes.length, []⟩, ⟨hu, bytes, hspelling, ?_, ?_⟩, rfl⟩
    · exact (List.append_nil bytes).symm
    · exact (Nat.zero_add _).symm

theorem spells_encode (u : CompiledUnit) : u.layout.Spells u.encode :=
  u.bytes_layout ▸ u.layout.spells_bytes

/-- What's written is read back. -/
theorem decode_encode (h : u.Encodable) : decode u.encode = .ok u :=
  decode_eq_ok.2 ⟨h, u.spells_encode⟩

/-- A method that does nothing forever, and says so in its stack map. -/
def idler : CompiledUnit where
  name := "Demo"
  flags := .none
  methods := [{
    name := "idle"
    type := ⟨[.object "Demo"], none⟩
    access := .static
    maxStack := 0
    maxLocals := 1
    body := .ofList [.label ⟨0⟩, .goto ⟨0⟩]
    stackMap := [⟨⟨0⟩, [.reference (.object "Demo")], []⟩] }]

theorem decode_encode_idler : decode idler.encode = .ok idler := by
  have htype : (ValueType.object "Demo").Encodable := ⟨by simp [ValueType.HasPlainNames], by decide⟩
  refine decode_encode ⟨by decide, by decide, ?_⟩
  simp only [idler, List.forall_mem_singleton]
  refine ⟨by decide, ⟨⟨?_, ?_⟩, by decide⟩, ⟨by decide, ?_⟩, rfl, by decide, by decide,
    ⟨by decide, ?_⟩, by decide, by decide⟩
  · simpa using htype.names
  · simp
  · simp [Body.ofList, Instruction.Encodable]
  · simp only [List.forall_mem_singleton]
    exact ⟨⟨by decide, by simpa [FrameValue.Encodable] using ⟨rfl, htype⟩⟩, by decide, by simp⟩

/-- What's read can be written and read back, and takes no fewer bytes than what's written, and as
few only if it's the same.  Other bytes from which the unit is read spell the same layout. -/
theorem encode_shortest (h : decode bytes = .ok u) :
    u.Encodable ∧ decode u.encode = .ok u ∧ u.encode.length ≤ bytes.length ∧
      (u.encode.length = bytes.length → bytes = u.encode) ∧
      ∀ other, decode other = .ok u ↔ u.layout.Spells other := by
  obtain ⟨hu, hspells⟩ := decode_eq_ok.1 h
  have hbytes := u.bytes_layout
  refine ⟨hu, decode_eq_ok.2 ⟨hu, hbytes ▸ u.layout.spells_bytes⟩, ?_, ?_, ?_⟩
  · rw [← hbytes]
    exact hspells.length_bytes_le
  · rw [← hbytes]
    intro hlength
    exact hspells.eq_bytes (Nat.le_of_eq hlength.symm)
  · intro other
    rw [decode_eq_ok]
    exact and_iff_right hu

/-- An empty unit is read if the length of its name is spelled in two groups, which is a byte more
than is written. -/
theorem encode_shortest_padded :
    decode [0x43, 0x4F, 0x49, 0x4C, 1, 0, 0x80, 0, 0] = .ok ⟨"", .none, []⟩ ∧
      (encode ⟨"", .none, []⟩).length ≤ 9 := by
  have h : decode [0x43, 0x4F, 0x49, 0x4C, 1, 0, 0x80, 0, 0] = .ok ⟨"", .none, []⟩ := by
    have hmethods : Spelled (0 : UInt32).toNat [0] := Spelled.last (b := 0) (by decide)
    have hname : Spelled (0 : UInt32).toNat [0x80, 0] := .more (b := 0x80) (by decide) hmethods
    refine decode_eq_ok.2 ⟨⟨by decide, by decide, by simp⟩, .raw _ (.raw _ (.raw _ ?_))⟩
    exact .number hname (by decide) (.raw [] (.number hmethods (by decide) .nil))
  exact ⟨h, (encode_shortest h).2.2.1⟩

end CompiledUnit

end Resumable
