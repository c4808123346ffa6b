import Resumable.Proofs.CapabilityRuns
import Resumable.Proofs.Natives
import Resumable.Proofs.Originals

/-!
# States on their way

A run pushes states onto capabilities and takes them back.  `CallState.push?` and `CallState.pop?`
say which state the next step moves, and in the frame of which method.  All other code that's added
to a method leaves the stacks of states alone, and code that only looks leaves the modes alone, too.
-/

namespace Resumable

/-- A state on its way to a capability or back, and the activation in which that's done: the owner
and the method, and how many methods wait for it. -/
structure Shift where
  state : Nat
  owner : String
  method : Method
  depth : Nat

namespace CallState

/-- The running method moves a state. -/
def shift (s : CallState) (state : Nat) : Shift :=
  ⟨state, s.current.owner, s.current.method, s.callers.length⟩

/-- The state that the next step pushes onto the capability with the given number, if it pushes
one. -/
def push? (n : Nat) (s : CallState) : Option Shift :=
  s.invocation?.bind fun (_, method, args) =>
    if method = Capability.pushState ∧ (Library.capability s.world args).toOption = some n then
      (Library.stateArgument s.world args 1).toOption.map s.shift
    else none

/-- The state that the next step takes from the capability with the given number, if it takes one. -/
def pop? (n : Nat) (s : CallState) : Option Shift :=
  s.invocation?.bind fun (_, method, args) =>
    if method = Capability.popState ∧ (Library.capability s.world args).toOption = some n then
      (s.world.cell n).states.head?.map s.shift
    else none

/-- The states that are pushed on the way through the states of a trail. -/
def pushes (n : Nat) (trail : List CallState) : List Shift := trail.filterMap (push? n)

/-- The states that are taken on the way through the states of a trail. -/
def pops (n : Nat) (trail : List CallState) : List Shift := trail.filterMap (pop? n)

/-- True if the next step, if it invokes a method, invokes one that takes a box or a state apart, or
looks at the mode. -/
def Looking (s : CallState) : Prop :=
  ∀ kind method, s.current.method.body.get? s.current.position = some (.invoke kind method) →
    method.Looks

variable {n : Nat} {s : CallState} {trail trail' : List CallState}

theorem pushes_append : pushes n (trail ++ trail') = pushes n trail ++ pushes n trail' :=
  List.filterMap_append ..

theorem pops_append : pops n (trail ++ trail') = pops n trail ++ pops n trail' :=
  List.filterMap_append ..

/-- Only invocations of one method push states. -/
theorem push?_eq_none
    (h : ∀ kind, s.current.method.body.get? s.current.position ≠
      some (.invoke kind Capability.pushState)) : s.push? n = none := by
  cases hcall : s.invocation? with
  | none => simp [push?, hcall]
  | some call =>
      obtain ⟨kind, method, args⟩ := call
      obtain ⟨hi, -⟩ := Machine.execute_of_invocation? hcall
      rw [push?, hcall, Option.bind_some]
      refine if_neg fun hpush => h kind ?_
      rw [hi, hpush.1]

/-- Only invocations of one method take states. -/
theorem pop?_eq_none
    (h : ∀ kind, s.current.method.body.get? s.current.position ≠
      some (.invoke kind Capability.popState)) : s.pop? n = none := by
  cases hcall : s.invocation? with
  | none => simp [pop?, hcall]
  | some call =>
      obtain ⟨kind, method, args⟩ := call
      obtain ⟨hi, -⟩ := Machine.execute_of_invocation? hcall
      rw [pop?, hcall, Option.bind_some]
      refine if_neg fun hpop => h kind ?_
      rw [hi, hpop.1]

/-- A method state that's handed to the method is pushed. -/
theorem push?_of_invocation? {c : Value} {state : Nat} {point : Int32} {stack locals : Value}
    (hcall : s.invocation? = some (.virtual, Capability.pushState, [c, .object state]))
    (hc : s.world.Stands n c) (ho : s.world.object? state = some (.state point stack locals)) :
    s.push? n = some (s.shift state) := by
  have hcapability : (Library.capability s.world [c, .object state]).toOption = some n := by
    rw [Snapshot.capability_of_stands hc]
    rfl
  have hstate : Library.stateArgument s.world [c, .object state] 1 = .ok state := by
    simp only [Library.stateArgument, List.getElem?_cons_succ, List.getElem?_cons_zero, ho]
  rw [push?, hcall, Option.bind_some]
  simp only [hcapability, and_self, if_true, hstate]
  rfl

/-- The method takes the state that has been pushed last. -/
theorem pop?_of_invocation? {c : Value} {state : Nat} {rest : List Nat}
    (hcall : s.invocation? = some (.virtual, Capability.popState, [c]))
    (hc : s.world.Stands n c) (hstates : (s.world.cell n).states = state :: rest) :
    s.pop? n = some (s.shift state) := by
  have hcapability : (Library.capability s.world [c]).toOption = some n := by
    rw [Snapshot.capability_of_stands hc]
    rfl
  rw [pop?, hcall, Option.bind_some]
  simp only [hcapability, and_self, if_true, hstates]
  rfl

theorem pushes_eq_nil (h : ∀ s ∈ trail, ∀ kind, s.current.method.body.get? s.current.position ≠
    some (.invoke kind Capability.pushState)) : pushes n trail = [] :=
  List.filterMap_eq_nil_iff.2 fun s hs => push?_eq_none (h s hs)

theorem pops_of_calm (h : ∀ s ∈ trail, s.current.Calm) : pops n trail = [] :=
  List.filterMap_eq_nil_iff.2 fun s hs => pop?_eq_none (h s hs).retains

theorem Looking.retains (h : s.Looking) (kind : InvokeKind) :
    s.current.method.body.get? s.current.position ≠ some (.invoke kind Capability.popState) :=
  fun hi => (h kind _ hi).retains.2 rfl

theorem Looking.withholds (h : s.Looking) (kind : InvokeKind) :
    s.current.method.body.get? s.current.position ≠ some (.invoke kind Capability.pushState) := by
  intro hi
  rcases h kind _ hi with hlook | ⟨k, hk⟩
  · revert hlook
    decide
  · cases k <;> exact absurd hk (by decide)

/-- Code that only looks moves no states. -/
theorem shifts_of_looking (h : ∀ s ∈ trail, s.Looking) :
    pushes n trail = [] ∧ pops n trail = [] :=
  ⟨pushes_eq_nil fun s hs => (h s hs).withholds,
    List.filterMap_eq_nil_iff.2 fun s hs => pop?_eq_none (h s hs).retains⟩

end CallState

namespace Machine

open Library

variable {m : Machine} {s t : CallState} {trail : List CallState}

/-- What only looks leaves the world as it is. -/
theorem world_of_looks {method : MethodRef} (h : method.Looks) {native : Native}
    (hlookup : Library.natives.lookup method = some native) (w : World) (args : List Value) :
    (native w args).2 = w := by
  have hsame {operation : World → List Value → Outcome}
      (hsame : ∀ result u, operation w args = .ok (result, u) → u = w) :
      (Library.native operation w args).2 = w := by
    simp only [Library.native]
    split
    · rename_i result u heq
      exact hsame result u heq
    · rfl
  have hlooking {look : Object → Except MachineError Value} :
      (Library.native (looking look) w args).2 = w := hsame fun result u h => by
    obtain ⟨v, -, h⟩ := Except.bind_eq_ok.1 h
    cases h
    rfl
  rcases h with h | ⟨k, rfl⟩
  · simp only [List.mem_cons, List.not_mem_nil, or_false] at h
    rcases h with rfl | rfl | rfl | rfl
    · obtain rfl : Library.native getMode = native := Option.some.inj hlookup
      refine hsame fun result u h => ?_
      obtain ⟨v, -, h⟩ := Except.bind_eq_ok.1 h
      cases h
      rfl
    · obtain rfl : Library.native getPoint = native := Option.some.inj hlookup
      rw [getPoint_eq]
      exact hlooking
    · obtain rfl : Library.native getStack = native := Option.some.inj hlookup
      rw [getStack_eq]
      exact hlooking
    · obtain rfl : Library.native getLocals = native := Option.some.inj hlookup
      rw [getLocals_eq]
      exact hlooking
  · obtain rfl : Library.native unbox = native := by cases k <;> exact Option.some.inj hlookup
    rw [unbox_eq]
    exact hlooking

/-- A step that only looks leaves capabilities as they are. -/
theorem capabilities_of_looking (hm : m.Equipped) (h : s.Looking) (next : m.step s = .running t) :
    t.world.capabilities = s.world.capabilities := by
  rcases running_cases next with
    hchanges | ⟨kind, method, args, native, result, hcall, hn, hanswer⟩
  · exact hchanges.capabilities
  · have hlooks := h kind method (execute_of_invocation? hcall).1
    obtain ⟨native', hlookup⟩ := Option.isSome_iff_exists.1 hlooks.retains.1
    obtain rfl := Option.some.inj ((hm.library method native' hlookup).symm.trans hn)
    have := world_of_looks hlooks hlookup s.world args
    rw [hanswer] at this
    exact congrArg World.capabilities this

/-- A run that only looks leaves capabilities as they are all the time. -/
theorem Advances.capabilities (h : m.Advances s trail t) (hm : m.Equipped)
    (hlooking : ∀ u ∈ trail, u.Looking) : t.world.capabilities = s.world.capabilities ∧
      ∀ u ∈ trail, u.world.capabilities = s.world.capabilities := by
  induction h with
  | refl s => exact ⟨rfl, by simp⟩
  | @step s t u trail next _ ih =>
      rw [List.forall_mem_cons] at hlooking
      obtain ⟨hlast, hall⟩ := ih hlooking.2
      have hnext := capabilities_of_looking hm hlooking.1 next
      exact ⟨hlast.trans hnext, List.forall_mem_cons.2 ⟨rfl, fun v hv => (hall v hv).trans hnext⟩⟩

end Machine

end Resumable
