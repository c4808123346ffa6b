
/-!
# Types of values

A value type has a descriptor: a letter for each primitive type, the name of an object type between
`L` and `;`, and `[` before the descriptor of an array's elements.  `ValueType.chars` prints
descriptors and `ValueType.parse` reads them.
-/

namespace Resumable

/-- The name of the root object type, to which every reference is assignable. -/
def rootTypeName : String := "lang/Object"

/-- The name of the type of string constants. -/
def stringTypeName : String := "lang/String"

/-- The kinds of values on the operand stack and in local slots. -/
inductive ValueKind
  | int
  | long
  | float
  | double
  | reference
deriving DecidableEq

/-- The kinds of values that arithmetic works on. -/
inductive NumericKind
  | int
  | long
  | float
  | double
deriving DecidableEq

namespace ValueKind

/-- True for the kinds that take two slots. -/
def isWide : ValueKind → Bool
  | long | double => true
  | _ => false

def text : ValueKind → String
  | int => "int"
  | long => "long"
  | float => "float"
  | double => "double"
  | reference => "ref"

end ValueKind

namespace NumericKind

def toValueKind : NumericKind → ValueKind
  | int => .int
  | long => .long
  | float => .float
  | double => .double

def text (k : NumericKind) : String := k.toValueKind.text

end NumericKind

/-- The type of a parameter, a result, an array element or an object.  Booleans are ints wherever
they're computed with. -/
inductive ValueType
  | boolean
  | int
  | long
  | float
  | double
  | object (name : String)
  | array (element : ValueType)
deriving DecidableEq

namespace ValueType

/-- The root object type. -/
def root : ValueType := .object rootTypeName

/-- True for object and array types. -/
def isReference : ValueType → Bool
  | object _ | array _ => true
  | _ => false

/-- The kind of value that stands for the type on the operand stack. -/
def kind : ValueType → ValueKind
  | boolean | int => .int
  | long => .long
  | float => .float
  | double => .double
  | object _ | array _ => .reference

/-- The number of local slots that a value of the type takes. -/
def slots (t : ValueType) : Nat := if t.kind.isWide then 2 else 1

/-- The characters of the type's descriptor. -/
def chars : ValueType → List Char
  | boolean => ['Z']
  | int => ['I']
  | long => ['J']
  | float => ['F']
  | double => ['D']
  | object name => 'L' :: name.toList ++ [';']
  | array element => '[' :: element.chars

/-- The type's descriptor. -/
def text (t : ValueType) : String := String.ofList t.chars

end ValueType

/-- The ways in which a text isn't a descriptor. -/
inductive DescriptorError
  | empty
  | unexpectedCharacter (descriptor : String) (found : Char) (position : Nat)
  | unterminatedObject (descriptor : String)
  | unexpectedVoid (descriptor : String)
  | trailingCharacters (descriptor : String)
deriving DecidableEq

namespace DescriptorError

def message : DescriptorError → String
  | empty => "empty descriptor"
  | unexpectedCharacter descriptor found position =>
    s!"unexpected character '{found}' at position {position} in '{descriptor}'"
  | unterminatedObject descriptor => s!"unterminated object type in '{descriptor}'"
  | unexpectedVoid descriptor =>
    s!"void is only allowed as a method's return type ('{descriptor}')"
  | trailingCharacters descriptor => s!"trailing characters in '{descriptor}'"

end DescriptorError

/-- The number of bytes that the characters take in UTF-8. -/
def byteLength (s : List Char) : Nat := s.foldr (fun c n => c.utf8Size + n) 0

namespace ValueType

/-- Reads one type at the front of `rest`, which ends the text `whole`, and gives what follows it.
Positions in errors count bytes of `whole`. -/
def parseFront (whole : String) : List Char → Except DescriptorError (ValueType × List Char)
  | [] => .error .empty
  | c :: rest =>
    if c = 'Z' then .ok (boolean, rest)
    else if c = 'I' then .ok (int, rest)
    else if c = 'J' then .ok (long, rest)
    else if c = 'F' then .ok (float, rest)
    else if c = 'D' then .ok (double, rest)
    else if c = 'L' then
      match rest.dropWhile (· ≠ ';') with
      | [] => .error (.unterminatedObject whole)
      | _ :: after => .ok (object (String.ofList (rest.takeWhile (· ≠ ';'))), after)
    else if c = '[' then
      match parseFront whole rest with
      | .error e => .error e
      | .ok (element, after) => .ok (array element, after)
    else if c = 'V' then .error (.unexpectedVoid whole)
    else .error (.unexpectedCharacter whole c (whole.utf8ByteSize - byteLength (c :: rest)))

/-- Reads a descriptor. -/
def parse (s : String) : Except DescriptorError ValueType :=
  match parseFront s s.toList with
  | .error e => .error e
  | .ok (t, []) => .ok t
  | .ok (_, _ :: _) => .error (.trailingCharacters s)

/-- Reading a type uses up at least one character. -/
theorem parseFront_length_lt {whole : String} {s rest : List Char} {t : ValueType}
    (h : parseFront whole s = .ok (t, rest)) : rest.length < s.length := by
  induction s generalizing t rest with
  | nil => simp [parseFront] at h
  | cons c s ih =>
    rw [parseFront] at h
    have hdrop := (List.dropWhile_suffix (l := s) (· ≠ ';')).length_le
    repeat' split at h
    all_goals simp_all
    all_goals grind

end ValueType

end Resumable
