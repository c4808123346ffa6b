import Resumable.Machine.Run

/-!
# Coroutines

A coroutine calls an instrumented method with a capability of its own.  If the method suspends, the
capability holds the states of the chain of methods that were active, and calling the method again
in loading mode takes them back and goes on from there.
-/

namespace Resumable

/-- Where a coroutine is. -/
inductive CoroutineState
  | ready
  | suspended
  /-- The method has returned, or a call has failed. -/
  | finished
deriving DecidableEq

/-- The call that a coroutine repeats, and its capability. -/
structure Coroutine where
  owner : String
  name : String
  descriptor : String
  /-- The arguments without the capability. -/
  args : List Value
  cell : Nat
  state : CoroutineState
deriving DecidableEq

/-- What resuming a coroutine comes to. -/
inductive Resumed
  | suspended
  | finished (result : Option Value)
deriving DecidableEq

/-- The outcome of resuming a coroutine, with the coroutine and the world after it. -/
structure Resumption where
  result : Except CallError Resumed
  coroutine : Coroutine
  world : World

namespace Coroutine

/-- A coroutine with a new capability that hasn't started yet. -/
def create (w : World) (owner name descriptor : String) (args : List Value) :
    Coroutine × World :=
  let (cell, w) := w.newCapability
  (⟨owner, name, descriptor, args, cell, .ready⟩, w)

/-- True if the coroutine's method is a loaded instance method. -/
def isInstanceMethod (c : Coroutine) (m : Machine) : Bool :=
  match MethodType.parse c.descriptor with
  | .error _ => false
  | .ok type => (m.method? ⟨c.owner, c.name, type⟩).any fun method => !method.isStatic

/-- The arguments of the call, in which the capability comes first or follows the receiver. -/
def callArguments (c : Coroutine) (m : Machine) (capability : Value) : List Value :=
  match c.args with
  | receiver :: args =>
    if c.isInstanceMethod m then receiver :: capability :: args
    else capability :: receiver :: args
  | [] => [capability]

/-- What a call's end means for the coroutine. -/
def settle (c : Coroutine) (completion : Completion) : Resumption :=
  let w := completion.world
  match completion.result with
  | .error e => ⟨.error e, { c with state := .finished }, w⟩
  | .ok result =>
    if (w.cell c.cell).isSaving then ⟨.ok .suspended, { c with state := .suspended }, w⟩
    else ⟨.ok (.finished result), { c with state := .finished }, w⟩

/-- Runs the coroutine until it suspends or finishes; there's nothing if that takes more than `fuel`
steps. -/
def resume (c : Coroutine) (m : Machine) (fuel : Nat) (w : World) : Option Resumption :=
  if c.state = .finished then some ⟨.error ⟨.coroutineFinished, []⟩, c, w⟩
  else
    let w :=
      if c.state = .suspended then
        w.modifyCell c.cell fun cell => { cell with mode := Capability.loading }
      else w
    let (capability, w) := w.allocate (.capability c.cell)
    (m.call fuel w c.owner c.name c.descriptor (c.callArguments m capability)).map c.settle

end Coroutine

end Resumable
