import Resumable.Proofs.Codec

/-!
# Bytes that are cut short or go on

A reader looks at the bytes that it takes and at nothing behind them.  So what it gives, and what it
finds wrong, stays the same if more bytes follow.  Only where bytes are missing may more of them
help, and that's found at their end.

For units this means that bytes which hold one don't hold one any more if they're cut short or go
on, and it's always told which of the two happened.
-/

namespace Resumable

/-- The same place in the input, if more bytes follow at its end. -/
def ByteCursor.extend (c : ByteCursor) (more : Bytes) : ByteCursor := ⟨c.position, c.rest ++ more⟩

/-- The position at which the input ends. -/
def ByteCursor.stop (c : ByteCursor) : Nat := c.position + c.rest.length

namespace Decoder

variable {α β : Type} {c c' : ByteCursor} {e : DecodeError}

/-- The reader doesn't look behind the bytes that it takes: more bytes change nothing, unless they're
missing. -/
structure Local (d : Decoder α) : Prop where
  gives : ∀ {c c' : ByteCursor} {x : α}, d.run c = .ok (x, c') →
    c'.stop = c.stop ∧ ∀ more, d.run (c.extend more) = .ok (x, c'.extend more)
  misses : ∀ {c : ByteCursor} {p : Nat}, d.run c = .error (.unexpectedEnd p) → p = c.stop
  refuses : ∀ {c : ByteCursor} {e : DecodeError}, d.run c = .error e →
    (∀ p, e ≠ .unexpectedEnd p) → ∀ more, d.run (c.extend more) = .error e

theorem run_bind_eq_error {d : Decoder α} {f : α → Decoder β} :
    (d >>= f).run c = .error e ↔
      d.run c = .error e ∨ ∃ x c₁, d.run c = .ok (x, c₁) ∧ (f x).run c₁ = .error e := by
  rw [StateT.run_bind, Except.bind_eq_error]
  simp only [Prod.exists]

theorem run_throw (e : DecodeError) (c : ByteCursor) :
    (throw e : Decoder α).run c = .error e := rfl

theorem local_pure (x : α) : (pure x : Decoder α).Local where
  gives h := by
    obtain ⟨rfl, rfl⟩ := run_pure_eq_ok.1 h
    exact ⟨rfl, fun more => rfl⟩
  misses h := by cases h
  refuses h := by cases h

theorem local_throw (he : ∀ p, e ≠ .unexpectedEnd p) : (throw e : Decoder α).Local where
  gives h := (run_throw_eq_ok.1 h).elim
  misses h := by
    rw [run_throw] at h
    cases h
    exact (he _ rfl).elim
  refuses h := by
    rw [run_throw] at h
    cases h
    exact fun _ more => rfl

theorem Local.bind {d : Decoder α} {f : α → Decoder β} (hd : d.Local) (hf : ∀ x, (f x).Local) :
    (d >>= f).Local where
  gives h := by
    obtain ⟨x, c₁, hx, hy⟩ := run_bind_eq_ok.1 h
    obtain ⟨hstop, hmore⟩ := hd.gives hx
    obtain ⟨hstop', hmore'⟩ := (hf x).gives hy
    exact ⟨hstop'.trans hstop, fun more => run_bind_eq_ok.2 ⟨x, _, hmore more, hmore' more⟩⟩
  misses h := by
    rcases run_bind_eq_error.1 h with hx | ⟨x, c₁, hx, hy⟩
    · exact hd.misses hx
    · rw [(hf x).misses hy, (hd.gives hx).1]
  refuses h he more := by
    rcases run_bind_eq_error.1 h with hx | ⟨x, c₁, hx, hy⟩
    · exact run_bind_eq_error.2 (.inl (hd.refuses hx he more))
    · exact run_bind_eq_error.2
        (.inr ⟨x, _, (hd.gives hx).2 more, (hf x).refuses hy he more⟩)

theorem Local.map {d : Decoder α} (hd : d.Local) (f : α → β) :
    (do return f (← d) : Decoder β).Local := hd.bind fun _ => local_pure _

theorem Local.ite {p : Prop} [Decidable p] {d d' : Decoder α} (hd : d.Local) (hd' : d'.Local) :
    (if p then d else d').Local := by
  split
  · exact hd
  · exact hd'

/-- What comes after a check is the same whether or not it's passed, and then isn't reached. -/
theorem Local.check {p : Prop} [Decidable p] {d : Decoder α} (hd : d.Local)
    (he : ∀ p, e ≠ .unexpectedEnd p) :
    (if p then (throw e : Decoder PUnit) >>= fun _ => d else d).Local :=
  .ite ((local_throw he).bind fun _ => hd) hd

theorem local_position : position.Local where
  gives h := by
    obtain ⟨rfl, rfl⟩ := run_position_eq_ok.1 h
    exact ⟨rfl, fun more => rfl⟩
  misses h := by cases h
  refuses h := by cases h

theorem split?_eq_none {n : Nat} {bytes : Bytes} : split? n bytes = none ↔ bytes.length < n := by
  induction n generalizing bytes with
  | zero => simp [split?]
  | succ n ih =>
      cases bytes with
      | nil => simp [split?]
      | cons b bytes => simp [split?, ih]

theorem run_get_bind (f : ByteCursor → Decoder α) (c : ByteCursor) :
    (get >>= f).run c = (f c).run c := rfl

theorem run_bytes_of_split {n : Nat} {front back : Bytes} (h : split? n c.rest = some (front, back)) :
    (bytes n).run c = .ok (front, ⟨c.position + n, back⟩) := by
  rw [bytes, run_get_bind, h]
  rfl

/-- Bytes are missing, or there are enough of them. -/
theorem run_bytes_cases (n : Nat) (c : ByteCursor) :
    c.rest.length < n ∧ (bytes n).run c = .error (.unexpectedEnd c.stop) ∨
      ∃ front back, c.rest = front ++ back ∧ front.length = n ∧
        (bytes n).run c = .ok (front, ⟨c.position + n, back⟩) := by
  cases hsplit : split? n c.rest with
  | none =>
      refine .inl ⟨split?_eq_none.1 hsplit, ?_⟩
      rw [bytes, run_get_bind, hsplit]
      rfl
  | some parts =>
      obtain ⟨front, back⟩ := parts
      obtain ⟨hlength, hrest⟩ := split?_eq_some.1 hsplit
      exact .inr ⟨front, back, hrest, hlength, run_bytes_of_split hsplit⟩

theorem local_bytes (n : Nat) : (bytes n).Local where
  gives {c c' x} h := by
    obtain ⟨hlength, hrest, hposition⟩ := (run_bytes_eq_ok.1 h).imp_right Layout.takes_raw.1
    refine ⟨?_, fun more => run_bytes_eq_ok.2 ⟨hlength, Layout.takes_raw.2 ⟨?_, hposition⟩⟩⟩
    · simp only [ByteCursor.stop, hrest, hposition, List.length_append, Nat.add_assoc]
    · simp only [ByteCursor.extend, hrest, List.append_assoc]
  misses {c p} h := by
    rcases run_bytes_cases n c with ⟨-, hend⟩ | ⟨front, back, -, -, hok⟩
    · rw [hend] at h
      cases h
      rfl
    · rw [hok] at h
      cases h
  refuses {c e} h he := by
    rcases run_bytes_cases n c with ⟨-, hend⟩ | ⟨front, back, -, -, hok⟩
    · rw [hend] at h
      cases h
      exact (he _ rfl).elim
    · rw [hok] at h
      cases h

/-- A byte is read as a text of one byte would be. -/
theorem byte_eq : byte = (do
    let front ← bytes 1
    return front.headD 0) := by
  funext ⟨position, rest⟩
  cases rest <;> rfl

theorem local_byte : byte.Local := byte_eq ▸ (local_bytes 1).map _

theorem local_fixed (width : Nat) : (fixed width).Local := (local_bytes width).map _

theorem local_int : int.Local := (local_fixed 4).map _

theorem local_groups (start remaining : Nat) : (groups start remaining).Local := by
  induction remaining with
  | zero => exact local_byte.bind fun _ => local_throw (by simp)
  | succ remaining ih =>
      refine local_byte.bind fun b => .check ?_ (by simp)
      exact .ite (local_pure _) (ih.map _)

theorem local_varInt : varInt.Local := local_position.bind fun start => local_groups start 5

theorem local_index : index.Local :=
  local_position.bind fun _ => local_varInt.bind fun _ =>
    .ite (local_pure _) (local_throw (by simp))

theorem local_label : label.Local := local_varInt.map _

theorem Local.many {d : Decoder α} (hd : d.Local) (n : Nat) : (many d n).Local := by
  induction n with
  | zero => exact local_pure _
  | succ n ih => exact hd.bind fun _ => ih.map _

theorem Local.list {d : Decoder α} (hd : d.Local) : (list d).Local :=
  local_varInt.bind fun n => hd.many n

theorem local_text : text.Local := by
  refine local_varInt.bind fun n => local_position.bind fun start => (local_bytes n).bind ?_
  intro content
  split
  · exact local_pure _
  · exact local_throw (by simp)

theorem local_descriptor (parse : String → Except DescriptorError α) :
    (descriptor parse).Local := by
  refine local_position.bind fun start => local_text.bind fun s => ?_
  cases parse s with
  | ok t => exact local_pure t
  | error cause => exact local_throw (by simp)

theorem local_operand (name : String) (ofByte? : UInt8 → Option α) :
    (operand name ofByte?).Local := by
  refine local_position.bind fun start => local_byte.bind fun b => ?_
  cases ofByte? b with
  | some x => exact local_pure x
  | none => exact local_throw (by simp)

theorem local_opcode : opcode.Local := by
  refine local_position.bind fun start => local_byte.bind fun b => ?_
  cases Opcode.ofByte? b with
  | some o => exact local_pure o
  | none => exact local_throw (by simp)

theorem local_switchCase : switchCase.Local := local_int.bind fun _ => local_label.map _

theorem local_methodRef : methodRef.Local :=
  local_text.bind fun _ => local_text.bind fun _ => (local_descriptor _).map _

theorem local_operands (o : Opcode) : (operands o).Local := by
  cases o
  case label | goto | jumpSubroutine => exact local_label.map _
  case constInt => exact local_int.map _
  case constLong | constFloat | constDouble => exact (local_fixed _).map _
  case constString => exact local_text.map _
  case load | store => exact (local_operand ..).bind fun _ => local_index.map _
  case increment => exact local_index.bind fun _ => (local_fixed 2).map _
  case binary | convert | compare => exact (local_operand ..).bind fun _ => (local_operand ..).map _
  case negate | arrayLoad | arrayStore | leave => exact (local_operand ..).map _
  case ifZero | ifCompare | ifSame | ifNull =>
    exact (local_operand ..).bind fun _ => local_label.map _
  case returnSubroutine => exact local_index.map _
  case tableSwitch => exact local_int.bind fun _ => local_label.bind fun _ => local_label.list.map _
  case lookupSwitch => exact local_label.bind fun _ => local_switchCase.list.map _
  case invokeStatic | invokeVirtual => exact local_methodRef.map _
  case newArray | checkCast | instanceOf => exact (local_descriptor _).map _
  all_goals exact local_pure _

theorem local_instruction : instruction.Local := local_opcode.bind local_operands

theorem local_frameValue : frameValue.Local := by
  refine local_position.bind fun start => local_byte.bind fun b => ?_
  split
  case h_7 =>
    refine (local_descriptor _).bind fun type => .ite (local_pure _) ?_
    exact local_throw (by simp)
  case h_8 => exact local_throw (by simp)
  all_goals exact local_pure _

theorem local_stackMapEntry : stackMapEntry.Local :=
  local_label.bind fun _ => local_frameValue.list.bind fun _ => local_frameValue.list.map _

theorem local_stackMap (method : String) (placed seen : List Label) (n : Nat) :
    (stackMap method placed seen n).Local := by
  induction n generalizing seen with
  | zero => exact local_pure _
  | succ n ih =>
      refine local_stackMapEntry.bind fun entry => .check (.check ?_ (by simp)) (by simp)
      exact (ih (entry.label :: seen)).map (entry :: ·)

theorem local_method : method.Local := by
  refine (local_fixed 2).bind fun access => local_text.bind fun name =>
    (local_descriptor _).bind fun type => local_index.bind fun maxStack =>
    local_index.bind fun maxLocals => local_instruction.list.bind fun instructions => ?_
  dsimp only
  split
  · exact local_throw (by simp)
  · exact local_varInt.bind fun n => (local_stackMap _ _ _ n).map _

/-- What follows the header's first four bytes. -/
def content : Decoder CompiledUnit := do
  let version ← byte
  if version ≠ Encoding.version then throw (.unsupportedVersion version)
  let flags ← byte
  let name ← text
  let methods ← list method
  return ⟨name, ⟨flags⟩, methods⟩

theorem local_content : content.Local := by
  refine local_byte.bind fun version => .check ?_ (by simp)
  exact local_byte.bind fun flags => local_text.bind fun name => local_method.list.map _

/-- Reads a unit as `unit` does, but finds fewer bytes than a unit's mark has missing. -/
def marked : Decoder CompiledUnit := do
  let front ← bytes 4
  if front ≠ Encoding.magic then throw .invalidMagic
  content

theorem local_marked : marked.Local :=
  (local_bytes 4).bind fun _ => local_content.check (by simp)

theorem run_unit_of_length_lt (h : c.rest.length < 4) : unit.run c = .error .invalidMagic := by
  rw [unit, run_get_bind, split?_eq_none.2 h]
  rfl

theorem run_unit_of_le (h : 4 ≤ c.rest.length) : unit.run c = marked.run c := by
  cases hsplit : split? 4 c.rest with
  | none => exact absurd (split?_eq_none.1 hsplit) (Nat.not_lt.2 h)
  | some parts =>
      obtain ⟨front, back⟩ := parts
      rw [unit, run_get_bind, hsplit, marked, StateT.run_bind, run_bytes_of_split hsplit,
        Except.ok_bind]
      dsimp only
      split <;> rfl

end Decoder

namespace CompiledUnit

open Decoder

variable {bytes more : Bytes} {u : CompiledUnit} {e : DecodeError}

/-- Fewer than four bytes can't be marked as a unit. -/
theorem decode_of_length_lt (h : bytes.length < 4) : decode bytes = .error .invalidMagic := by
  have hrun := run_unit_of_length_lt (c := ⟨0, bytes⟩) h
  rw [decode, hrun]
  rfl

/-- From four bytes on, what's read is a unit that nothing may follow. -/
theorem decode_of_le (h : 4 ≤ bytes.length) :
    decode bytes = match marked.run ⟨0, bytes⟩ with
      | .error e => .error e
      | .ok (u, c) => if c.rest = [] then .ok u else .error (.trailingBytes c.position) := by
  have hrun := run_unit_of_le (c := ⟨0, bytes⟩) h
  rw [decode, hrun]
  cases marked.run ⟨0, bytes⟩ with
  | error e => rfl
  | ok read => rfl

theorem le_length_of_decode (h : decode bytes = .ok u) : 4 ≤ bytes.length := by
  refine Nat.le_of_not_lt fun hlt => ?_
  rw [decode_of_length_lt hlt] at h
  cases h

/-- A unit's bytes are all taken. -/
theorem run_marked_of_decode (h : decode bytes = .ok u) :
    marked.run ⟨0, bytes⟩ = .ok (u, ⟨bytes.length, []⟩) := by
  rw [decode_of_le (le_length_of_decode h)] at h
  split at h
  · cases h
  · rename_i u' c hrun
    obtain ⟨position, rest⟩ := c
    split at h
    · rename_i hrest
      cases h
      obtain rfl : rest = [] := hrest
      have hstop := (local_marked.gives hrun).1
      obtain rfl : position = bytes.length := by simpa [ByteCursor.stop] using hstop
      exact hrun
    · cases h

theorem decode_append_of_ok (h : decode bytes = .ok u) (hmore : more ≠ []) :
    decode (bytes ++ more) = .error (.trailingBytes bytes.length) := by
  have hrun : marked.run ⟨0, bytes ++ more⟩ = .ok (u, ⟨bytes.length, more⟩) :=
    (local_marked.gives (run_marked_of_decode h)).2 more
  have hlength := le_length_of_decode h
  rw [decode_of_le (by simp; omega), hrun]
  simp [hmore]

theorem eq_length_of_unexpectedEnd {p : Nat} (h : decode bytes = .error (.unexpectedEnd p)) :
    p = bytes.length := by
  by_cases hlength : 4 ≤ bytes.length
  · rw [decode_of_le hlength] at h
    split at h
    · rename_i hrun
      cases h
      simpa [ByteCursor.stop] using local_marked.misses hrun
    · split at h <;> cases h
  · rw [decode_of_length_lt (Nat.not_le.1 hlength)] at h
    cases h

theorem decode_append_of_error (h : decode bytes = .error e) (hend : ∀ p, e ≠ .unexpectedEnd p)
    (hmagic : e = .invalidMagic → 4 ≤ bytes.length) (more : Bytes) :
    decode (bytes ++ more) = .error e := by
  have hlength : 4 ≤ bytes.length := by
    refine Nat.le_of_not_lt fun hlt => ?_
    rw [decode_of_length_lt hlt] at h
    cases h
    exact absurd (hmagic rfl) (Nat.not_le.2 hlt)
  rw [decode_of_le hlength] at h
  rw [decode_of_le (by simp; omega)]
  split at h
  · rename_i hrun
    cases h
    have hrun' : marked.run ⟨0, bytes ++ more⟩ = .error e := local_marked.refuses hrun hend more
    rw [hrun']
  · rename_i u c hrun
    split at h
    · cases h
    · rename_i hrest
      cases h
      have hrun' : marked.run ⟨0, bytes ++ more⟩ = .ok (u, c.extend more) :=
        (local_marked.gives hrun).2 more
      rw [hrun']
      simp [ByteCursor.extend, hrest]

/-- Whether bytes hold a unit, end too early or go on after the unit is always told apart.

Bytes that follow a unit are found where the unit ends, and bytes that are missing are missed at the
end of the input.  Everything else that's wrong stays wrong in the same way, whatever follows, if
the four bytes of the mark are there.  So a unit's bytes that are cut short are no unit's any more,
and no unit's bytes start like those of another one. -/
theorem decode_append (bytes : Bytes) :
    (∀ u, decode bytes = .ok u → ∀ more, more ≠ [] →
      decode (bytes ++ more) = .error (.trailingBytes bytes.length)) ∧
    (∀ p, decode bytes = .error (.unexpectedEnd p) → p = bytes.length) ∧
    (∀ e, decode bytes = .error e → (∀ p, e ≠ .unexpectedEnd p) →
      (e = .invalidMagic → 4 ≤ bytes.length) → ∀ more, decode (bytes ++ more) = .error e) ∧
    (∀ u, decode bytes = .ok u → ∀ front back, bytes = front ++ back → back ≠ [] →
      decode front = .error
        (if front.length < 4 then .invalidMagic else .unexpectedEnd front.length)) ∧
    (∀ u, decode bytes = .ok u → ∀ more u', decode (bytes ++ more) = .ok u' → more = []) := by
  refine ⟨fun u hu more hmore => decode_append_of_ok hu hmore,
    fun p hp => eq_length_of_unexpectedEnd hp,
    fun e he hend hmagic more => decode_append_of_error he hend hmagic more, ?_, ?_⟩
  · rintro u hu front back rfl hback
    split
    · rename_i hlt
      exact decode_of_length_lt hlt
    · rename_i hge
      cases hfront : decode front with
      | ok v =>
          rw [decode_append_of_ok hfront hback] at hu
          cases hu
      | error e =>
          by_cases hend : ∃ p, e = .unexpectedEnd p
          · obtain ⟨p, rfl⟩ := hend
            rw [eq_length_of_unexpectedEnd hfront]
          · -- What else is wrong would be wrong with the whole unit as well.
            have hwhole := decode_append_of_error hfront (fun p hp => hend ⟨p, hp⟩)
              (fun _ => Nat.not_lt.1 hge) back
            rw [hu] at hwhole
            cases hwhole
  · intro u hu more u' hu'
    refine Decidable.byContradiction fun hmore => ?_
    rw [decode_append_of_ok hu hmore] at hu'
    cases hu'

/-- A unit whose only method just returns. -/
def returner : CompiledUnit where
  name := "A"
  flags := .none
  methods := [{
    name := "B"
    type := ⟨[], none⟩
    access := ⟨9⟩
    maxStack := 0
    maxLocals := 0
    body := .ofList [.leave none]
    stackMap := [] }]

def returnerBytes : Bytes :=
  [0x43, 0x4F, 0x49, 0x4C, 1, 0, 1, 0x41, 1, 9, 0, 1, 0x42, 3, 0x28, 0x29, 0x56, 0, 0, 1, 43, 0]

theorem decode_returner : decode returnerBytes = .ok returner := by
  have hencode : returner.encode = returnerBytes := by decide +kernel
  have hencodable : returner.Encodable := by
    refine ⟨by decide, by decide, ?_⟩
    simp only [returner, List.forall_mem_singleton]
    refine ⟨by decide, ⟨⟨by simp, by simp⟩, by decide⟩, ⟨by decide, ?_⟩, rfl, by decide, by decide,
      ⟨by decide, by simp⟩, by simp, by simp⟩
    simp [Body.ofList, Instruction.Encodable]
  refine decode_eq_ok.2 ⟨hencodable, ?_⟩
  rw [← hencode, ← returner.bytes_layout]
  exact returner.layout.spells_bytes

/-- A byte too many follows the unit; without the last ten, the method's name is missing. -/
theorem decode_append_returner :
    decode returnerBytes = .ok returner ∧
      decode (returnerBytes ++ [0]) = .error (.trailingBytes 22) ∧
      decode (returnerBytes.take 12) = .error (.unexpectedEnd 12) := by
  obtain ⟨goesOn, -, -, cutShort, -⟩ := decode_append returnerBytes
  exact ⟨decode_returner, goesOn returner decode_returner [0] (by simp),
    cutShort returner decode_returner (returnerBytes.take 12) (returnerBytes.drop 12)
      (List.take_append_drop 12 returnerBytes).symm (by decide)⟩

end CompiledUnit

end Resumable
