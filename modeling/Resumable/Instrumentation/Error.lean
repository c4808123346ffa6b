import Resumable.Analysis.Error
import Resumable.Unit.Decoding

/-!
# Errors of instrumentation

Any error stops the instrumentation of the whole unit.
-/

namespace Resumable

/-- What an instrumented method may need too many of. -/
inductive SlotLimit
  | locals
  | stack
deriving DecidableEq

def SlotLimit.text : SlotLimit → String
  | locals => "local slots"
  | stack => "stack slots"

/-- The greatest number of slots that a method can have. -/
def maxSlots : Nat := 0xFFFF

/-- Why a unit can't be instrumented. -/
inductive InstrumentError
  | malformedInput (cause : DecodeError)
  | unsupportedConstruct (method instruction : String) (position : Nat)
  | analysis (method : String) (transformed : Bool) (cause : AnalysisError)
  | limitExceeded (method : String) (limit : SlotLimit) (needed : Nat)
deriving DecidableEq

def InstrumentError.message : InstrumentError → String
  | malformedInput cause => s!"malformed input: {cause.message}"
  | unsupportedConstruct method instruction position =>
    s!"unsupported instruction '{instruction}' at position {position} in '{method}'"
  | analysis method transformed cause =>
    let stage := if transformed then " after instrumentation" else ""
    s!"analysis of '{method}'{stage} failed {cause.message}"
  | limitExceeded method limit needed =>
    s!"'{method}' would need {needed} {limit.text}, the maximum is {maxSlots}"

end Resumable
