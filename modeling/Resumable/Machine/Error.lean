import Resumable.Analysis.Error
import Resumable.Machine.Value
import Resumable.Unit.Decoding

/-!
# Errors of the machine

A call fails with a cause and a trace of the methods that were active then.  The causes that verified
code can't bring about, unless a native doesn't keep to its type, stand apart as misuses.
-/

namespace Resumable

/-- What an instruction can't do with what it finds. -/
inductive Misuse
  | stackUnderflow
  | invalidLocal (index : Nat)
  | expectedInt (found : Value)
  | expectedIntLocal (found : Value)
  | expectedArray (found : Value)
  | cannotNegate (found : Value)
  | cannotCompare (left right : Value)
  | cannotConvert (found : Value) (target : NumericKind)
  | cannotCompute (op : BinaryOp) (kind : NumericKind) (left right : Value)
  | undefinedLabel (label : Label)
  | fellOffEnd
deriving DecidableEq

/-- What a native of the library can't do with its arguments. -/
inductive BadArguments
  | expectedThree
  | expectedPoint
  | expectedInt (index : Nat)
  | nothingToBox
  | expectedBox (found : ValueType)
deriving DecidableEq

/-- Why a call fails, or a unit can't be loaded. -/
inductive MachineError
  /-- A native's own words. -/
  | native (message : String)
  | badArguments (cause : BadArguments)
  | misuse (cause : Misuse)
  | invalidDescriptor (descriptor : String) (cause : DescriptorError)
  | wrongInvokeKind (method : MethodRef) (kind : InvokeKind)
  | malformedUnit (cause : DecodeError)
  | verification (method : String) (cause : AnalysisError)
  /-- Executed code has thrown a value. -/
  | thrown (value : Value)
  | nullReference
  | indexOutOfBounds (index : Int32) (length : Nat)
  | negativeArraySize (length : Int32)
  | classCast (expected found : ValueType)
  | divisionByZero
  | unknownMethod (method : MethodRef)
  | argumentMismatch (method : MethodRef) (expected found : List ValueType)
  | callDepthLimit (limit : Nat)
  | instructionLimit (limit : Nat)
  | unsupportedInstruction (name : String)
  | emptyStateStack
  | uninstrumentedSuspend
  | coroutineFinished
deriving DecidableEq

def Misuse.message (w : World) : Misuse → String
  | stackUnderflow => "stack underflow"
  | invalidLocal index => s!"invalid local {index}"
  | expectedInt found => s!"expected an int, found {w.text found}"
  | expectedIntLocal found => s!"expected an int local, found {w.text found}"
  | expectedArray found =>
    "expected an array, found " ++
      match w.referent? found with
      | some o => o.type.text
      | none => w.text found
  | cannotNegate found => s!"unable to negate {w.text found}"
  | cannotCompare left right => s!"unable to compare {w.text left} and {w.text right}"
  | cannotConvert found target => s!"unable to convert {w.text found} to {target.text}"
  | cannotCompute op kind left right =>
    s!"unable to perform '{op.text}' on {kind.text} values with {w.text left} and {w.text right}"
  | undefinedLabel label => s!"undefined label {label.text}"
  | fellOffEnd => "execution fell off the end of the method"

def BadArguments.message : BadArguments → String
  | expectedThree => "expected three arguments"
  | expectedPoint => "expected an int point id"
  | expectedInt index => s!"expected an int argument at {index}"
  | nothingToBox => "missing value to box"
  | expectedBox found => s!"expected a boxed value, found {found.text}"

/-- The types between parentheses. -/
def typesText (types : List ValueType) : String :=
  "(" ++ Text.join ", " (types.map ValueType.text) ++ ")"

/-- The error's message.  Values are shown as they are in the world that the error has left. -/
def MachineError.message (w : World) : MachineError → String
  | native message => message
  | badArguments cause => cause.message
  | misuse cause => cause.message w
  | invalidDescriptor descriptor cause => s!"invalid descriptor '{descriptor}': {cause.message}"
  | wrongInvokeKind method kind =>
    let mode := match kind with
      | .static => "Static"
      | .virtual => "Virtual"
    s!"'{method.text}' can't be invoked as {mode}"
  | malformedUnit cause => s!"failed to read unit: {cause.message}"
  | verification method cause => s!"verification of '{method}' failed {cause.message}"
  | thrown value => s!"thrown: {w.text value}"
  | nullReference => "null reference"
  | indexOutOfBounds index length =>
    s!"index {index.toInt} is out of bounds for an array of length {length}"
  | negativeArraySize length => s!"negative array size ({length.toInt})"
  | classCast expected found => s!"a {found.text} can't be cast to {expected.text}"
  | divisionByZero => "division by zero"
  | unknownMethod method => s!"unknown method '{method.text}'"
  | argumentMismatch method expected found =>
    s!"'{method.text}' expected {typesText expected}, but found {typesText found}"
  | callDepthLimit limit => s!"the call depth limit ({limit}) was exceeded"
  | instructionLimit limit => s!"the instruction limit ({limit}) was exceeded"
  | unsupportedInstruction name => s!"unsupported instruction '{name}'"
  | emptyStateStack => "there's no method state to pop"
  | uninstrumentedSuspend => "suspend was called from a method that hasn't been instrumented"
  | coroutineFinished => "the coroutine has already finished"

/-- A method that was active when a call failed, and the position that it had got to. -/
structure TracePoint where
  method : String
  position : Nat
deriving DecidableEq

def TracePoint.text (p : TracePoint) : String :=
  s!"--- at '{p.method}', instruction {p.position}"

/-- How a call failed: why, and in which methods, the innermost one first. -/
structure CallError where
  cause : MachineError
  trace : List TracePoint
deriving DecidableEq

/-- The error's message, with one more line for each method of the trace. -/
def CallError.message (w : World) (e : CallError) : String :=
  Text.join "\n" (e.cause.message w :: e.trace.map TracePoint.text)

end Resumable
