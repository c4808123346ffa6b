import Resumable.Analysis.StackMap
import Resumable.Machine.Library
import Resumable.Text.Quoted

/-!
# Machines

A machine holds verified units and natives.  Nothing that executed code does changes it: what changes
is the world.
-/

namespace Resumable

/-- The limits that a machine keeps to. -/
structure Limits where
  /-- How many methods with a body may be active at once. -/
  callDepth : Nat
  /-- How many instructions a single call may execute, if that's limited. -/
  instructions : Option Nat
deriving DecidableEq

def Limits.standard : Limits := ⟨256, none⟩

/-- Loaded units, the last loaded first, and natives, the last registered first. -/
structure Machine where
  limits : Limits
  units : List CompiledUnit
  natives : List (MethodRef × Native)

/-- Verifies a method's body, and the labels of methods without a body too. -/
def Method.verifyForLoading (owner : String) (m : Method) : Except AnalysisError Unit := do
  if m.hasBody then m.verify owner
  match m.body.labelPositions with
  | .error cause => throw ⟨0, .labels cause⟩
  | .ok _ => return ()

/-- The method's name in traces. -/
def Method.qualifiedSignature (owner : String) (m : Method) : String := s!"{owner}.{m.signature}"

/-- Verifies all methods of the unit. -/
def CompiledUnit.verifyForLoading (u : CompiledUnit) : Except MachineError Unit :=
  u.methods.forM fun m =>
    match m.verifyForLoading u.name with
    | .ok () => .ok ()
    | .error cause => .error (.verification (m.qualifiedSignature u.name) cause)

namespace Machine

/-- A machine with nothing but the library. -/
def new (limits : Limits) : Machine := ⟨limits, [], Library.natives⟩

/-- The loaded unit with the given name. -/
def unit? (m : Machine) (name : String) : Option CompiledUnit := m.units.find? (·.name = name)

/-- Verifies and loads a unit, in the place of one with the same name. -/
def load (m : Machine) (u : CompiledUnit) : Except MachineError Machine := do
  u.verifyForLoading
  return { m with units := u :: m.units.filter (·.name ≠ u.name) }

/-- Reads, verifies and loads a unit, and tells its name. -/
def loadBytes (m : Machine) (bytes : Bytes) : Except MachineError (String × Machine) :=
  match CompiledUnit.decode bytes with
  | .error cause => .error (.malformedUnit cause)
  | .ok u => do
    let m ← m.load u
    return (u.name, m)

/-- Registers a native, in the place of one for the same method.  Natives come before methods of
units. -/
def register (m : Machine) (method : MethodRef) (native : Native) : Machine :=
  { m with natives := (method, native) :: m.natives.filter (·.1 ≠ method) }

/-- The native for a method. -/
def native? (m : Machine) (method : MethodRef) : Option Native := m.natives.lookup method

/-- The method of a loaded unit. -/
def method? (m : Machine) (method : MethodRef) : Option Method :=
  (m.unit? method.owner).bind fun u => u.method? method.name method.type

/-- The names of the loaded units, in their order. -/
def text (m : Machine) : String :=
  let names := (m.units.map (·.name)).mergeSort fun a b => a ≤ b
  "Vm \x7b units: [" ++ Text.join ", " (names.map Text.quoted) ++ "] \x7d"

end Machine

end Resumable
