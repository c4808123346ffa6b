import Resumable.Proofs.MirroredSteps
import Resumable.Proofs.Natives

/-!
# Calls from start to end, and what they ask of the host

A call that ends has gone through the states of some trail.  Two calls are the same to the host if
they call the same natives of the host with the same arguments, in the same order.
-/

namespace Resumable

namespace Machine

/-- True if a call ends so, by steps from the states of the trail. -/
inductive Completes (m : Machine) : CallStatus → List CallState → Completion → Prop
  | over (c : Completion) : Completes m (.over c) [] c
  | step {s : CallState} {trail : List CallState} {c : Completion}
      (rest : Completes m (m.step s) trail c) : Completes m (.running s) (s :: trail) c

/-- The native of the host that the next step calls, if it calls one, with the arguments. -/
def hostCall? (m : Machine) (s : CallState) : Option (MethodRef × List Value) :=
  s.invocation?.bind fun (kind, method, args) =>
    if (m.nativeOutcome? s.world kind method args).isSome ∧ ¬ (Library.natives.lookup method).isSome
    then some (method, args) else none

/-- The calls of natives of the host on the way through the states of a trail. -/
def hostCalls (m : Machine) (trail : List CallState) : List (MethodRef × List Value) :=
  trail.filterMap m.hostCall?

/-- True if the natives of the host can be relied on. -/
def ReliesOnHost (m : Machine) (held : Nat → Prop) : Prop :=
  ∀ method native, m.native? method = some native → ¬ method.InLibrary →
    Library.Reliable held native

variable {m m₀ : Machine} {s t : CallState} {trail trail' : List CallState} {c : Completion}
  {status : CallStatus}

theorem completes_iff_run : (∃ trail, m.Completes status trail c) ↔ ∃ fuel, m.run fuel status = some c := by
  constructor
  · rintro ⟨trail, h⟩
    induction h with
    | «over» c => exact ⟨0, rfl⟩
    | step _ ih =>
        obtain ⟨fuel, hrun⟩ := ih
        exact ⟨fuel + 1, hrun⟩
  · rintro ⟨fuel, h⟩
    induction fuel generalizing status with
    | zero =>
        cases status with
        | running s => cases h
        | «over» c' =>
            cases h
            exact ⟨[], .over c⟩
    | succ fuel ih =>
        cases status with
        | running s =>
            obtain ⟨trail, htrail⟩ := ih h
            exact ⟨s :: trail, .step htrail⟩
        | «over» c' =>
            cases h
            exact ⟨[], .over c⟩

/-- A call ends in one way only. -/
theorem Completes.unique {c' : Completion} (h : m.Completes status trail c)
    (k : m.Completes status trail' c') : trail' = trail ∧ c' = c := by
  induction h generalizing trail' with
  | «over» c =>
      cases k
      exact ⟨rfl, rfl⟩
  | step _ ih =>
      cases k with
      | step rest =>
          obtain ⟨rfl, rfl⟩ := ih rest
          exact ⟨rfl, rfl⟩

theorem Advances.completes (h : m.Advances s trail t) (k : m.Completes (.running t) trail' c) :
    m.Completes (.running s) (trail ++ trail') c := by
  induction h with
  | refl => exact k
  | step next _ ih => exact .step (next ▸ ih k)

/-- A call that ends gets to each state of its trail. -/
theorem Completes.reaches {before after : List CallState}
    (h : m.Completes (.running s) (before ++ t :: after) c) : m.Advances s before t := by
  induction before generalizing s with
  | nil =>
      cases h with
      | step rest => exact .refl _
  | cons u before ih =>
      cases h with
      | step rest =>
          generalize hnext : m.step _ = status at rest
          cases status with
          | «over» c' => cases before <;> cases rest
          | running s' => exact .step hnext (ih rest)

theorem Completes.last (h : m.step s = .over c) : m.Completes (.running s) [s] c :=
  .step (h ▸ .over c)

theorem hostCalls_append : m.hostCalls (trail ++ trail') = m.hostCalls trail ++ m.hostCalls trail' :=
  List.filterMap_append ..

theorem hostCalls_cons : m.hostCalls (s :: trail) = (m.hostCall? s).toList ++ m.hostCalls trail := by
  cases h : m.hostCall? s <;> simp [hostCalls, h]

end Machine

namespace CallState

variable {m m₀ : Machine} {cells known : Nat → Prop} {s t : CallState}

/-- A typed call makes the invocation that's next. -/
theorem Typed.invocation? (ht : t.Typed known) {kind : InvokeKind} {method : MethodRef}
    (hi : t.current.method.body.get? t.current.position = some (.invoke kind method)) :
    t.invocation? = some (kind, method,
      (t.current.frame.stack.take (Machine.argumentTypes method kind).length).reverse) := by
  obtain ⟨frames, g, i, g', hp⟩ := ht.runs.poised ht.world
  obtain rfl : i = .invoke kind method := Option.some.inj (hp.get?.symm.trans hi)
  have hforeseen := hp.executes
  simp only [ValueFrame.Executes] at hforeseen
  have hexecute : ∀ (f : ValueFrame), (Machine.argumentTypes method kind).length ≤ f.stack.length →
      f.execute t.world (.invoke kind method) = .ok (.call kind method
        (f.stack.take (Machine.argumentTypes method kind).length).reverse,
        ⟨f.locals, f.stack.drop (Machine.argumentTypes method kind).length⟩, t.world) := by
    rintro ⟨locals, stack⟩ hle
    have := @ValueFrame.execute_invoke t.world locals
      (stack.take (Machine.argumentTypes method kind).length)
      (stack.drop (Machine.argumentTypes method kind).length) kind method
      (by rw [List.length_take, Nat.min_eq_left hle])
    rwa [List.take_append_drop] at this
  have hle : (Machine.argumentTypes method kind).length ≤ t.current.frame.stack.length := by
    refine Nat.not_lt.1 fun hlt => ?_
    have hunderflow : t.current.frame.execute t.world (.invoke kind method) =
        .error (.misuse .stackUnderflow) := by
      cases kind with
      | static =>
          have hlt' : t.current.frame.stack.length < method.type.params.length + 0 := hlt
          simp only [ValueFrame.execute, ValueFrame.popMany, hlt', if_true]
          rfl
      | virtual =>
          have hlt' : t.current.frame.stack.length < method.type.params.length + 1 := hlt
          simp only [ValueFrame.execute, ValueFrame.popMany, hlt', if_true]
          rfl
    rw [hunderflow] at hforeseen
    cases hforeseen
  simp only [CallState.invocation?, hi, Option.bind_some, hexecute _ hle]

/-- Both states make the same invocation, or none. -/
theorem Faces.invocation? (h : s.Faces m cells known t) (ht : t.Tame known) :
    s.invocation? = t.invocation? := by
  obtain ⟨frames, g, i, g', hp⟩ := ht.typed.runs.poised ht.typed.world
  have hcurrent := h.current
  rw [← h.world] at hcurrent
  obtain ⟨slots, -, hexecute⟩ := hcurrent.execute hp
  simp only [CallState.invocation?, hp.get?, hcurrent.get? hp, Option.bind_some, ← h.world, hexecute]
  cases t.current.frame.execute t.world i with
  | error e => rfl
  | ok outcome =>
      obtain ⟨flow, f, u⟩ := outcome
      cases flow <;> rfl

/-- True if two invocations are of one method, with arguments that are the same but
for addresses. -/
def SameInvocation (ρ : Renaming) (x y : InvokeKind × MethodRef × List Value) : Prop :=
  y.1 = x.1 ∧ y.2.1 = x.2.1 ∧ List.Forall₂ (Value.Renamed ρ) x.2.2 y.2.2

theorem Renamed.invocation? {ρ : Renaming} {known' : Nat → Prop} (hs : s.Typed known)
    (ht : t.Typed known') (h : s.Renamed ρ t) :
    Option.Rel (SameInvocation ρ) s.invocation? t.invocation? := by
  have hbody : t.current.method.body.get? t.current.position =
      s.current.method.body.get? s.current.position := by rw [h.current.method, h.current.position]
  cases hi : s.current.method.body.get? s.current.position with
  | none =>
      rw [CallState.invocation?, CallState.invocation?, hbody, hi]
      exact .none
  | some i =>
      by_cases hinvoke : ∃ kind method, i = .invoke kind method
      · obtain ⟨kind, method, rfl⟩ := hinvoke
        rw [hs.invocation? hi, ht.invocation? (hbody.trans hi)]
        obtain ⟨frames, g, i, g', hp⟩ := hs.runs.poised hs.world
        have hstack := (h.current.frame frames g hp.analyze hp.frame).stack
        exact .some ⟨rfl, rfl, List.rel_reverse (List.forall₂_take _ hstack)⟩
      · have hnone (u : CallState) (hu : u.current.method.body.get? u.current.position = some i) :
            u.invocation? = none := by
          cases hcall : u.invocation? with
          | none => rfl
          | some call =>
              obtain ⟨kind, method, args⟩ := call
              obtain ⟨hi', -⟩ := Machine.execute_of_invocation? hcall
              exact absurd ⟨kind, method, Option.some.inj (hu.symm.trans hi')⟩ hinvoke
        rw [hnone s hi, hnone t (hbody.trans hi)]
        exact .none

end CallState

/-- True if two calls of natives are of one method, with arguments that are the same but for
addresses. -/
def SameCall (ρ : Renaming) (x y : MethodRef × List Value) : Prop :=
  y.1 = x.1 ∧ List.Forall₂ (Value.Renamed ρ) x.2 y.2

theorem SameCall.mono {ρ ρ' : Renaming} {x y : MethodRef × List Value} (h : SameCall ρ x y)
    (hρ : ∀ a a', ρ a a' → ρ' a a') : SameCall ρ' x y :=
  ⟨h.1, h.2.imp fun _ _ hv => hv.mono hρ⟩

namespace Machine

variable {m m₀ : Machine} {s t : CallState} {ρ : Renaming}

/-- Code that has been added asks nothing of the host. -/
theorem hostCall?_of_added (h : s.current.Added) : m.hostCall? s = none := by
  obtain ⟨d, frames, h⟩ := h
  cases hcall : s.invocation? with
  | none => simp [hostCall?, hcall]
  | some call =>
      obtain ⟨kind, method, args⟩ := call
      have hlibrary : method.InLibrary := h.library kind method (execute_of_invocation? hcall).1
      rw [hostCall?, hcall, Option.bind_some]
      exact if_neg fun hhost => hhost.2 hlibrary

/-- Invocations that enter a method ask nothing of the host. -/
theorem hostCall?_of_enters {active : Nat} {kind : InvokeKind} {method : MethodRef}
    {args : List Value} {a : Activation} (hcall : s.invocation? = some (kind, method, args))
    (h : m.invoke active s.world kind method args = .entered a) : m.hostCall? s = none := by
  rcases m.invoke_cases active s.world kind method args with
    ⟨e, hinvoke, -⟩ | ⟨⟨outcome, u⟩, -, hinvoke⟩ | ⟨d, -, -, -, -, hnative, -⟩
  · rw [hinvoke] at h
    cases h
  · rw [hinvoke] at h
    cases outcome <;> cases h
  · rw [hostCall?, hcall, Option.bind_some]
    exact if_neg fun hhost => by simp [hnative] at hhost

theorem hostCalls_of_added {trail : List CallState} (h : ∀ s ∈ trail, s.current.Added) :
    m.hostCalls trail = [] :=
  List.filterMap_eq_nil_iff.2 fun s hs => hostCall?_of_added (h s hs)

theorem hostCalls_of_calm {trail : List CallState} (h : ∀ s ∈ trail, s.current.Calm) :
    m.hostCalls trail = [] := hostCalls_of_added fun s hs => (h s hs).added

/-- The same invocations ask the same of the host. -/
theorem hostCall?_renamed (hnative : ∀ method, m.native? method = m₀.native? method)
    (h : Option.Rel (CallState.SameInvocation ρ) s.invocation? t.invocation?) :
    Option.Rel (SameCall ρ) (m₀.hostCall? s) (m.hostCall? t) := by
  rw [hostCall?, hostCall?]
  generalize s.invocation? = x at h
  generalize t.invocation? = y at h
  cases h with
  | none => exact .none
  | @some x y h =>
      obtain ⟨_, _, args⟩ := x
      obtain ⟨kind, method, args'⟩ := y
      obtain ⟨hkind, hmethod, hargs⟩ := h
      dsimp only at hkind hmethod hargs
      subst hkind hmethod
      have hsome : (m.nativeOutcome? t.world kind method args').isSome =
          (m₀.nativeOutcome? s.world kind method args).isSome := by
        have hnull : args'.head?.all Value.isNull = args.head?.all Value.isNull := by
          cases hargs with
          | nil => rfl
          | cons hv _ => exact hv.isNull
        simp only [nativeOutcome?, hnull, hnative]
        split <;> simp
      dsimp only [Option.bind_some]
      rw [hsome]
      split
      · exact .some ⟨rfl, hargs⟩
      · exact .none

end Machine

end Resumable
