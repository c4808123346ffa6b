import Resumable.Machine.Basic
import Resumable.Machine.Execute

/-!
# Running calls

A call runs in steps of one instruction each.  Its state has the method that's running, the methods
that wait for it, and the world.  `Machine.step` makes one step, and `Machine.run` makes steps until
the call is over.

When a call fails, its trace names the methods that were active, each with the instruction that it
was executing.
-/

namespace Resumable

/-- A method that has been entered and not yet left, with the position of its current instruction. -/
structure Activation where
  owner : String
  method : Method
  position : Nat
  frame : ValueFrame

/-- The activation as a trace shows it. -/
def Activation.tracePoint (a : Activation) : TracePoint :=
  ⟨a.method.qualifiedSignature a.owner, a.position⟩

/-- The state of a call: the running method, and those that wait at an invocation, the innermost one
first. -/
structure CallState where
  world : World
  /-- How many instructions the call has executed. -/
  executed : Nat
  current : Activation
  callers : List Activation

/-- How a call has ended, and the world that it has left. -/
structure Completion where
  result : Except CallError (Option Value)
  world : World

/-- A call that goes on, or one that's over. -/
inductive CallStatus
  | running (state : CallState)
  | over (completion : Completion)

/-- The outcome of invoking a method. -/
inductive Invocation
  | failed (cause : MachineError) (world : World)
  /-- A native has run. -/
  | returned (result : Option Value) (world : World)
  /-- A method with a body has been entered. -/
  | entered (activation : Activation)

/-- The call has failed, with nothing to trace but the given activations. -/
def CallStatus.failed (cause : MachineError) (active : List Activation) (w : World) : CallStatus :=
  .over ⟨.error ⟨cause, active.map Activation.tracePoint⟩, w⟩

namespace CallState

/-- Goes on at the next instruction, with what an invocation has returned on the operand stack. -/
def resumed (a : Activation) (result : Option Value) : Activation :=
  { a with
    position := a.position + 1
    frame := match result with
      | some v => a.frame.push v
      | none => a.frame }

/-- Leaves the running method. -/
def leave (s : CallState) (result : Option Value) : CallStatus :=
  match s.callers with
  | [] => .over ⟨.ok result, s.world⟩
  | caller :: callers => .running { s with current := resumed caller result, callers }

end CallState

namespace Machine

/-- Invokes a method while `active` methods with a body are active. -/
def invoke (m : Machine) (active : Nat) (w : World) (kind : InvokeKind) (method : MethodRef)
    (args : List Value) : Invocation :=
  if kind = .virtual && args.head?.all Value.isNull then .failed .nullReference w
  else
    match m.native? method with
    | some native =>
      match native w args with
      | (.ok result, w) => .returned result w
      | (.error cause, w) => .failed cause w
    | none =>
      match m.method? method with
      | none => .failed (.unknownMethod method) w
      | some declared =>
        if ¬ declared.hasBody then .failed (.unknownMethod method) w
        else if declared.isStatic ≠ (kind = .static) then .failed (.wrongInvokeKind method kind) w
        else if m.limits.callDepth ≤ active then .failed (.callDepthLimit m.limits.callDepth) w
        else .entered ⟨method.owner, declared, 0, .entry args declared.maxLocals.toNat⟩

/-- Goes on after an instruction of the running method. -/
def follow (m : Machine) (s : CallState) (flow : Flow) : CallStatus :=
  let a := s.current
  match flow with
  | .proceed => .running { s with current := { a with position := a.position + 1 } }
  | .jump target =>
    match a.method.body.position? target with
    | some position => .running { s with current := { a with position } }
    | none => .failed (.misuse (.undefinedLabel target)) s.callers s.world
  | .leave result => s.leave result
  | .call kind method args =>
    match m.invoke (s.callers.length + 1) s.world kind method args with
    | .failed cause w => .failed cause (a :: s.callers) w
    | .returned result world =>
      .running { s with world, current := CallState.resumed a result }
    | .entered callee => .running { s with current := callee, callers := a :: s.callers }

/-- Executes the current instruction. -/
def step (m : Machine) (s : CallState) : CallStatus :=
  let a := s.current
  match a.method.body.get? a.position with
  | none => .failed (.misuse .fellOffEnd) s.callers s.world
  | some i =>
    match m.limits.instructions with
    | some limit =>
      if limit ≤ s.executed then .failed (.instructionLimit limit) (a :: s.callers) s.world
      else execute s i
    | none => execute s i
where
  /-- Executes an instruction in the running method, and goes on after it. -/
  execute (s : CallState) (i : Instruction) : CallStatus :=
    match s.current.frame.execute s.world i with
    | .error cause => .failed cause (s.current :: s.callers) s.world
    | .ok (flow, frame, world) =>
      m.follow
        { s with world, executed := s.executed + 1, current := { s.current with frame } } flow

/-- Makes steps until the call is over; there's nothing if it takes more than `fuel` steps. -/
def run (m : Machine) : (fuel : Nat) → CallStatus → Option Completion
  | _, .over completion => some completion
  | 0, .running _ => none
  | fuel + 1, .running s => m.run fuel (m.step s)

/-- The types that a call of a method takes its arguments for, the receiver's first. -/
def argumentTypes (method : MethodRef) (kind : InvokeKind) : List ValueType :=
  match kind with
  | .static => method.type.params
  | .virtual => .object method.owner :: method.type.params

/-- Fails unless each argument can be used where its type is expected. -/
def checkArguments (w : World) (method : MethodRef) (kind : InvokeKind) (args : List Value) :
    Except MachineError Unit :=
  let expected := argumentTypes method kind
  if expected.length = args.length && (args.zip expected).all fun (v, t) => w.isInstance v t then
    .ok ()
  else .error (.argumentMismatch method expected (args.map w.typeOf))

/-- Starts a call of a method that a loaded unit declares.  An instance method gets its receiver as
the first argument. -/
def start (m : Machine) (w : World) (owner name descriptor : String) (args : List Value) :
    CallStatus :=
  match MethodType.parse descriptor with
  | .error cause => .failed (.invalidDescriptor descriptor cause) [] w
  | .ok type =>
    let method : MethodRef := ⟨owner, name, type⟩
    match m.method? method with
    | none => .failed (.unknownMethod method) [] w
    | some declared =>
      let kind := if declared.isStatic then InvokeKind.static else .virtual
      match checkArguments w method kind args with
      | .error cause => .failed cause [] w
      | .ok () =>
        match m.invoke 0 w kind method args with
        | .failed cause w => .failed cause [] w
        | .returned result w => .over ⟨.ok result, w⟩
        | .entered a => .running ⟨w, 0, a, []⟩

/-- Calls a method; there's nothing if the call takes more than `fuel` steps. -/
def call (m : Machine) (fuel : Nat) (w : World) (owner name descriptor : String)
    (args : List Value) : Option Completion :=
  m.run fuel (m.start w owner name descriptor args)

end Machine

end Resumable
