import Resumable.Instrumentation.Transform

/-!
# Instrumenting units

All methods of a unit that may suspend become resumable, or none does.  Methods that already are
stay as they are, and so does a unit that has been instrumented before, unless asked otherwise.
-/

namespace Resumable

/-- How units are instrumented. -/
structure InstrumentSettings where
  /-- Units that have been instrumented before are looked at again. -/
  reinstrument : Bool
  /-- What has been written is read back and verified. -/
  verifyOutput : Bool
deriving DecidableEq

def InstrumentSettings.standard : InstrumentSettings := ⟨false, true⟩

namespace Method

/-- True if the method may suspend, but isn't resumable yet. -/
def needsInstrumentation (m : Method) : Bool :=
  m.type.isEligible && m.hasBody && !m.access.isInstrumented

/-- The resumable form of the method, marked as such; other methods stay as they are. -/
def instrument (owner : String) (m : Method) : Except InstrumentError Method :=
  if m.needsInstrumentation then do
    let transformed ← m.transform owner
    return { transformed with access := transformed.access.union .instrumented }
  else return m

end Method

namespace CompiledUnit

/-- The resumable forms of the methods that need one, each with its index, where the first method has
the given index. -/
def resumableForms (owner : String) :
    (index : Nat) → List Method → Except InstrumentError (List (Nat × Method))
  | _, [] => return []
  | index, m :: methods =>
    if m.needsInstrumentation then do
      let form ← m.instrument owner
      let rest ← resumableForms owner (index + 1) methods
      return (index, form) :: rest
    else resumableForms owner (index + 1) methods

/-- Puts methods in the places of those that have the given indices. -/
def replaceMethods (methods : List Method) (forms : List (Nat × Method)) : List Method :=
  forms.foldl (fun methods (index, form) => methods.set index form) methods

/-- Makes the unit's methods resumable, but not before all of them that need it have a resumable
form: how many they are or what has failed, and the unit afterwards. -/
def instrumentInPlace (settings : InstrumentSettings) (u : CompiledUnit) :
    Except InstrumentError Nat × CompiledUnit :=
  if u.flags.isInstrumented && !settings.reinstrument then (.ok 0, u)
  else
    match resumableForms u.name 0 u.methods with
    | .error e => (.error e, u)
    | .ok forms =>
      if forms.length = 0 then (.ok 0, u)
      else
        (.ok forms.length,
          { u with
            methods := replaceMethods u.methods forms
            flags := u.flags.union .instrumented })

/-- The unit with its methods made resumable, and how many of them were. -/
def instrument (settings : InstrumentSettings) (u : CompiledUnit) :
    Except InstrumentError (Nat × CompiledUnit) :=
  match u.instrumentInPlace settings with
  | (.error e, _) => .error e
  | (.ok count, u) => .ok (count, u)

/-- Verifies the bodies of all methods. -/
def verifyBodies (u : CompiledUnit) : Except InstrumentError Unit :=
  u.methods.forM fun m =>
    if m.hasBody then
      match m.verify u.name with
      | .ok () => .ok ()
      | .error cause => .error (.analysis m.signature m.access.isInstrumented cause)
    else .ok ()

/-- The bytes of the unit, verified if the settings say so. -/
def write (settings : InstrumentSettings) (u : CompiledUnit) : Except InstrumentError Bytes := do
  let bytes := u.encode
  if settings.verifyOutput then
    match decode bytes with
    | .error cause => throw (.malformedInput cause)
    | .ok written => written.verifyBodies
  return bytes

/-- Instruments the unit that the bytes are of. -/
def instrumentBytes (settings : InstrumentSettings) (bytes : Bytes) :
    Except InstrumentError Bytes := do
  match decode bytes with
  | .error cause => throw (.malformedInput cause)
  | .ok u =>
    let (_, u) ← u.instrument settings
    u.write settings

end CompiledUnit

end Resumable
