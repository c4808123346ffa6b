import Resumable.Frame.Basic
import Resumable.Body.Basic

/-!
# Errors of the analysis

What can be wrong with a method, as causes, and the position of the instruction at which it was
found.
-/

namespace Resumable

/-- What an instruction needed where it found something else. -/
inductive Expectation
  | kind (kind : ValueKind)
  | kindInLocal (kind : ValueKind) (index : Nat)
  | singleSlot
  | type (type : ValueType)
  | array
  | arrayOf (kind : ValueKind)
deriving DecidableEq

def Expectation.text : Expectation → String
  | kind k => k.text
  | kindInLocal k index => s!"{k.text} in local {index}"
  | singleSlot => "a single slot value"
  | type t => t.text
  | array => "array"
  | arrayOf k => s!"{k.text} array"

/-- What can be wrong with a method. -/
inductive AnalysisCause
  | tooManyParameters (needed maxLocals : Nat)
  | stackUnderflow
  | stackOverflow (maxStack : Nat)
  | incompatibleStackHeights (expected found : Nat)
  | incompatibleStackValues (expected found : FrameValue)
  | unexpectedType (expected : Expectation) (found : FrameValue)
  | invalidLocal (index maxLocals : Nat)
  | invalidOperation (op : BinaryOp) (kind : NumericKind)
  | expectedReferenceType (type : ValueType)
  | returnMismatch (returns : Option ValueType)
  | fallOffEnd
  | unsupportedInstruction (name : String)
  | stackMapMismatch (label : Label)
  | labels (cause : LabelError)
deriving DecidableEq

def AnalysisCause.message : AnalysisCause → String
  | tooManyParameters needed maxLocals =>
    s!"the method's parameters need {needed} local slots, but only {maxLocals} are declared"
  | stackUnderflow => "stack underflow"
  | stackOverflow maxStack =>
    s!"the stack would exceed its declared maximum of {maxStack} slots"
  | incompatibleStackHeights expected found =>
    s!"incompatible stack heights at a join point (expected {expected}, found {found})"
  | incompatibleStackValues expected found =>
    s!"incompatible stack values at a join point (expected {expected.text}, found {found.text})"
  | unexpectedType expected found => s!"expected {expected.text}, found {found.text}"
  | invalidLocal index maxLocals =>
    s!"local {index} is out of range (max_locals is {maxLocals})"
  | invalidOperation op kind => s!"'{op.text}' isn't defined for {kind.text} values"
  | expectedReferenceType type => s!"{type.text} is not a reference type"
  | returnMismatch returns =>
    "the return doesn't match the method's return type " ++
      match returns with
      | some type => type.text
      | none => "V"
  | fallOffEnd => "execution can fall off the end of the method"
  | unsupportedInstruction name => s!"unsupported instruction '{name}'"
  | stackMapMismatch label =>
    s!"the stack map entry for {label.text} doesn't match the analyzed frame"
  | labels cause => cause.message

/-- What is wrong with a method, and where. -/
structure AnalysisError where
  position : Nat
  cause : AnalysisCause
deriving DecidableEq

def AnalysisError.message (e : AnalysisError) : String :=
  s!"at instruction {e.position}: {e.cause.message}"

end Resumable
