import Resumable.Machine.Run

/-!
# Engines

An engine runs a call by nested recursion: an invocation executes the body of the method that it
enters, and the caller goes on when that has come to its end.  There's no list of callers.  What
remains of them when a call fails is the trace, to which each of them adds itself.

All calls share two counters, of the methods that are active and of the instructions that have been
executed.
-/

namespace Resumable

/-- A machine, with the counters that its calls share. -/
structure Engine where
  machine : Machine
  /-- How many methods with a body are active. -/
  callDepth : Nat
  /-- How many instructions have been executed.  They're only counted if they're limited. -/
  executed : Nat

/-- What something that an engine runs has come to, and what it has left. -/
structure Ending (α : Type) where
  result : Except CallError α
  engine : Engine
  world : World

/-- Which way a method goes on after an instruction.  An invocation has returned by then. -/
inductive Way
  | proceed
  | jump (target : Label)
  | leave (result : Option Value)

/-- Adds a method around those of the trace. -/
def CallError.extend (e : CallError) (p : TracePoint) : CallError :=
  { e with trace := e.trace ++ [p] }

namespace Engine

/-- An engine with nothing but the library. -/
def new (limits : Limits) : Engine := ⟨.new limits, 0, 0⟩

/-- Verifies and loads a unit. -/
def load (e : Engine) (u : CompiledUnit) : Except MachineError Engine := do
  return { e with machine := ← e.machine.load u }

/-- Reads, verifies and loads a unit, and tells its name. -/
def loadBytes (e : Engine) (bytes : Bytes) : Except MachineError (String × Engine) := do
  let (name, machine) ← e.machine.loadBytes bytes
  return (name, { e with machine })

/-- Registers a native. -/
def register (e : Engine) (method : MethodRef) (native : Native) : Engine :=
  { e with machine := e.machine.register method native }

/-- What executes a body from an activation on. -/
abbrev Runner := Engine → World → Activation → Option (Ending (Option Value))

/-- Fails before there's anything to trace. -/
def fail {α : Type} (e : Engine) (w : World) (cause : MachineError) : Option (Ending α) :=
  some ⟨.error ⟨cause, []⟩, e, w⟩

/-- Invokes a method.  It's active while its body is executed, whether that succeeds or not. -/
def invoke (run : Runner) (e : Engine) (w : World) (kind : InvokeKind) (method : MethodRef)
    (args : List Value) : Option (Ending (Option Value)) :=
  match e.machine.invoke e.callDepth w kind method args with
  | .failed cause w => e.fail w cause
  | .returned result w => some ⟨.ok result, e, w⟩
  | .entered a =>
    (run { e with callDepth := e.callDepth + 1 } w a).map fun ending =>
      { ending with engine := { ending.engine with callDepth := ending.engine.callDepth - 1 } }

/-- Executes an instruction.  What an invocation returns goes on the operand stack. -/
def perform (run : Runner) (e : Engine) (w : World) (f : ValueFrame) (i : Instruction) :
    Option (Ending (Way × ValueFrame)) :=
  match f.execute w i with
  | .error cause => e.fail w cause
  | .ok (.proceed, f, w) => some ⟨.ok (.proceed, f), e, w⟩
  | .ok (.jump target, f, w) => some ⟨.ok (.jump target, f), e, w⟩
  | .ok (.leave result, f, w) => some ⟨.ok (.leave result, f), e, w⟩
  | .ok (.call kind method args, f, w) =>
    (invoke run e w kind method args).map fun ending =>
      { ending with
        result := ending.result.map fun result =>
          (.proceed, match result with
            | some v => f.push v
            | none => f) }

/-- Counts an instruction if they're limited, and executes it if there's room for it. -/
def count (run : Runner) (e : Engine) (w : World) (f : ValueFrame) (i : Instruction) :
    Option (Ending (Way × ValueFrame)) :=
  match e.machine.limits.instructions with
  | some limit =>
    let e := { e with executed := e.executed + 1 }
    if limit < e.executed then e.fail w (.instructionLimit limit) else perform run e w f i
  | none => perform run e w f i

/-- Goes on in a method after an instruction.  If that has failed the method adds itself to the
trace. -/
def follow (run : Runner) (a : Activation) :
    Ending (Way × ValueFrame) → Option (Ending (Option Value))
  | ⟨.error error, e, w⟩ => some ⟨.error (error.extend a.tracePoint), e, w⟩
  | ⟨.ok (.proceed, frame), e, w⟩ => run e w { a with position := a.position + 1, frame }
  | ⟨.ok (.jump target, frame), e, w⟩ =>
    match a.method.body.position? target with
    | some position => run e w { a with position, frame }
    | none => e.fail w (.misuse (.undefinedLabel target))
  | ⟨.ok (.leave result, _), e, w⟩ => some ⟨.ok result, e, w⟩

/-- Executes a body from an activation on; there's nothing if more fuel is needed.  Each instruction
needs some, and leaves the rest to what it invokes and to what comes after it. -/
def execute : (fuel : Nat) → Runner
  | 0, _, _, _ => none
  | fuel + 1, e, w, a =>
    match a.method.body.get? a.position with
    | none => e.fail w (.misuse .fellOffEnd)
    | some i => (count (execute fuel) e w a.frame i).bind (follow (execute fuel) a)

/-- Calls a method that a loaded unit declares.  The instructions are counted from the outermost
call on. -/
def call (e : Engine) (fuel : Nat) (w : World) (owner name descriptor : String)
    (args : List Value) : Option (Ending (Option Value)) :=
  match MethodType.parse descriptor with
  | .error cause => e.fail w (.invalidDescriptor descriptor cause)
  | .ok type =>
    let method : MethodRef := ⟨owner, name, type⟩
    match e.machine.method? method with
    | none => e.fail w (.unknownMethod method)
    | some declared =>
      let kind := if declared.isStatic then InvokeKind.static else .virtual
      match Machine.checkArguments w method kind args with
      | .error cause => e.fail w cause
      | .ok () =>
        let e := if e.callDepth = 0 then { e with executed := 0 } else e
        invoke (execute fuel) e w kind method args

end Engine

end Resumable
