import Resumable.Descriptor.ValueType

/-!
# Types of methods

A method's descriptor lists its parameters between parentheses and ends in its result, or in `V` if
it has none.  `MethodType.chars` prints such descriptors and `MethodType.parse` reads them.
-/

namespace Resumable

/-- The parameters and the result of a method.  The receiver of an instance method isn't a
parameter. -/
structure MethodType where
  params : List ValueType
  returns : Option ValueType
deriving DecidableEq

namespace MethodType

/-- The number of local slots that the parameters take. -/
def slots (t : MethodType) : Nat := t.params.foldr (fun type n => type.slots + n) 0

/-- The characters of the descriptor. -/
def chars (t : MethodType) : List Char :=
  '(' :: t.params.flatMap ValueType.chars ++
    ')' :: (match t.returns with
      | some r => r.chars
      | none => ['V'])

/-- The method's descriptor. -/
def text (t : MethodType) : String := String.ofList t.chars

/-- Reads types up to a closing parenthesis, and gives what follows it. -/
def parseParams (whole : String) (s : List Char) :
    Except DescriptorError (List ValueType × List Char) :=
  match s with
  | [] => .error .empty
  | ')' :: rest => .ok ([], rest)
  | c :: s =>
    match _h : ValueType.parseFront whole (c :: s) with
    | .error e => .error e
    | .ok (t, rest) =>
      match parseParams whole rest with
      | .error e => .error e
      | .ok (ts, after) => .ok (t :: ts, after)
termination_by s.length
decreasing_by
  exact ValueType.parseFront_length_lt _h

/-- Reads the result type, which nothing may follow. -/
def parseReturns (whole : String) : List Char → Except DescriptorError (Option ValueType)
  | [] => .error .empty
  | 'V' :: rest => if rest = [] then .ok none else .error (.trailingCharacters whole)
  | s =>
    match ValueType.parseFront whole s with
    | .error e => .error e
    | .ok (t, rest) => if rest = [] then .ok (some t) else .error (.trailingCharacters whole)

/-- Reads a descriptor. -/
def parse (s : String) : Except DescriptorError MethodType :=
  match s.toList with
  | [] => .error .empty
  | '(' :: rest => do
    let (params, rest) ← parseParams s rest
    let returns ← parseReturns s rest
    return ⟨params, returns⟩
  | c :: _ => .error (.unexpectedCharacter s c 0)

end MethodType

end Resumable
