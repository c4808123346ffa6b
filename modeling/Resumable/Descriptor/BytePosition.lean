import Resumable.Descriptor.MethodType

/-!
# Descriptors read by byte positions

Descriptors are texts in UTF-8.  Here they're read as such texts: what comes next is told from the
byte at a position, and names and characters are taken out of the text between two positions.  In
`ValueType.parse` and `MethodType.parse` what's left to read is a list of characters, so nothing can
be taken out of the middle of one.  By byte positions it could, which counts as an error of its own.
-/

namespace Resumable

/-- The ways in which reading a descriptor by byte positions fails. -/
inductive ByteReadError
  /-- The text isn't a descriptor. -/
  | descriptor (cause : DescriptorError)
  /-- What's between the positions doesn't begin and end between characters of the text. -/
  | misplacedSlice (start stop : Nat)
deriving DecidableEq

/-- The byte at a position of a text. -/
def byteAt? (s : String) (position : Nat) : Option UInt8 := s.toByteArray.data[position]?

theorem lt_of_byteAt? {s : String} {position : Nat} {byte : UInt8}
    (h : byteAt? s position = some byte) : position < s.utf8ByteSize :=
  (Array.getElem?_eq_some_iff.1 h).1

/-- What's between two positions of a text. -/
def slice (s : String) (start stop : Nat) : Except ByteReadError String :=
  if h : (⟨start⟩ : String.Pos.Raw).IsValid s ∧ (⟨stop⟩ : String.Pos.Raw).IsValid s ∧ start ≤ stop then
    .ok (s.extract (s.pos ⟨start⟩ h.1) (s.pos ⟨stop⟩ h.2.1))
  else .error (.misplacedSlice start stop)

/-- The position of the first of the given characters in a text. -/
def find? (c : Char) (s : String) : Option Nat :=
  if c ∈ s.toList then some (byteLength (s.toList.takeWhile (· ≠ c))) else none

namespace ValueType

/-- Reads the name of an object type at a position, and gives the position of what follows the
semicolon behind it. -/
def nameAt (s : String) (start : Nat) : Except ByteReadError (String × Nat) := do
  let tail ← slice s start s.utf8ByteSize
  match find? ';' tail with
  | none => .error (.descriptor (.unterminatedObject s))
  | some length =>
    let name ← slice s start (start + length)
    .ok (name, start + length + 1)

theorem lt_of_nameAt {s name : String} {start next : Nat} (h : nameAt s start = .ok (name, next)) :
    start < next := by
  unfold nameAt at h
  cases htail : slice s start s.utf8ByteSize with
  | error e => simp [htail, bind, Except.bind] at h
  | ok tail =>
      simp only [htail, bind, Except.bind] at h
      split at h
      · cases h
      · split at h
        · cases h
        · cases h
          omega

/-- Reads one type at a position, and gives the position of what follows it. -/
def parseAt (s : String) (position : Nat) : Except ByteReadError (ValueType × Nat) :=
  match _h : byteAt? s position with
  | none => .error (.descriptor .empty)
  | some byte =>
    if byte = 'Z'.toUInt8 then .ok (boolean, position + 1)
    else if byte = 'I'.toUInt8 then .ok (int, position + 1)
    else if byte = 'J'.toUInt8 then .ok (long, position + 1)
    else if byte = 'F'.toUInt8 then .ok (float, position + 1)
    else if byte = 'D'.toUInt8 then .ok (double, position + 1)
    else if byte = 'L'.toUInt8 then
      match nameAt s (position + 1) with
      | .error e => .error e
      | .ok (name, next) => .ok (object name, next)
    else if byte = '['.toUInt8 then
      match parseAt s (position + 1) with
      | .error e => .error e
      | .ok (element, next) => .ok (array element, next)
    else if byte = 'V'.toUInt8 then .error (.descriptor (.unexpectedVoid s))
    else do
      let tail ← slice s position s.utf8ByteSize
      .error (.descriptor (.unexpectedCharacter s (tail.toList.headD '?') position))
termination_by s.utf8ByteSize - position
decreasing_by
  have := lt_of_byteAt? _h
  omega

/-- Reading a type moves on. -/
theorem lt_of_parseAt {s : String} {position next : Nat} {t : ValueType}
    (h : parseAt s position = .ok (t, next)) : position < next := by
  fun_induction parseAt s position generalizing t next with
  | case8 position name after hname =>
      cases h
      have := lt_of_nameAt hname
      omega
  | case10 position element after helement =>
      rename_i ih
      cases h
      have := ih helement
      omega
  | case12 position =>
      cases htail : slice s position s.utf8ByteSize <;> simp [htail, bind, Except.bind] at h
  | _ => cases h <;> omega

/-- Reads a descriptor. -/
def parseBytes (s : String) : Except ByteReadError ValueType := do
  let (t, position) ← parseAt s 0
  if position = s.utf8ByteSize then .ok t else .error (.descriptor (.trailingCharacters s))

end ValueType

namespace MethodType

/-- Reads types up to a closing parenthesis, and gives the position of what follows it. -/
def parseParamsAt (s : String) (position : Nat) : Except ByteReadError (List ValueType × Nat) :=
  match _h : byteAt? s position with
  | none => .error (.descriptor .empty)
  | some byte =>
    if byte = ')'.toUInt8 then .ok ([], position + 1)
    else
      match _h' : ValueType.parseAt s position with
      | .error e => .error e
      | .ok (t, next) =>
        match parseParamsAt s next with
        | .error e => .error e
        | .ok (ts, after) => .ok (t :: ts, after)
termination_by s.utf8ByteSize - position
decreasing_by
  have := lt_of_byteAt? _h
  have := ValueType.lt_of_parseAt _h'
  omega

/-- Reads the result type at a position, and gives the position of what follows it. -/
def parseReturnsAt (s : String) (position : Nat) : Except ByteReadError (Option ValueType × Nat) :=
  match byteAt? s position with
  | none => .error (.descriptor .empty)
  | some byte =>
    if byte = 'V'.toUInt8 then .ok (none, position + 1)
    else do
      let (t, next) ← ValueType.parseAt s position
      .ok (some t, next)

/-- Reads a descriptor. -/
def parseBytes (s : String) : Except ByteReadError MethodType :=
  match byteAt? s 0 with
  | none => .error (.descriptor .empty)
  | some byte =>
    if byte = '('.toUInt8 then do
      let (params, position) ← parseParamsAt s 1
      let (returns, position) ← parseReturnsAt s position
      if position = s.utf8ByteSize then .ok ⟨params, returns⟩
      else .error (.descriptor (.trailingCharacters s))
    else .error (.descriptor (.unexpectedCharacter s (s.toList.headD '?') 0))

end MethodType

end Resumable
