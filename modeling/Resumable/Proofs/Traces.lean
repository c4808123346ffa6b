import Resumable.Proofs.Engines
import Resumable.Proofs.Starts

/-!
# The traces of failed calls

When a call fails, its trace is the call stack at that moment: it has each method that's active, the
innermost one first, with the position of the instruction that it's executing.  That's an invocation
of the next inner one in all of them but the innermost.

A method that runs off its end, or jumps to a label that isn't there, would be missing in the trace.
But execution only gets to positions that the analysis has been to, and there's no way off them.
-/

namespace Resumable

/-- True if execution may go on so after the instruction, as far as its position is concerned. -/
def Flow.Follows (i : Instruction) : Flow → Prop
  | proceed => i.fallsThrough
  | jump target => target ∈ i.targets
  | call .. | leave _ => True

namespace ValueFrame

variable {f e : ValueFrame} {w u : World} {i : Instruction} {flow : Flow}

/-- Only instructions that fall through let execution go on behind them, and only their targets are
jumped to. -/
theorem leads_of_execute (h : f.execute w i = .ok (flow, e, u)) : flow.Follows i := by
  cases i with
  | invoke kind method =>
      obtain ⟨x, -, h⟩ := Except.bind_eq_ok.1 h
      cases h
      trivial
  | jumpSubroutine | returnSubroutine => cases h
  | label | nop =>
      cases h
      rfl
  | const constant => cases constant <;> cases h <;> rfl
  | throw =>
      obtain ⟨x, -, h⟩ := Except.bind_eq_ok.1 h
      cases h
  | load | store | pop | pop2 | dup | dupX1 | dupX2 | dup2 | swap | binary | negate | convert
  | compare | newArray | arrayLength | arrayLoad | arrayStore | checkCast | instanceOf =>
      simp only [execute, Except.bind_eq_ok, pure, Except.pure, Except.ok.injEq, Prod.mk.injEq] at h
      obtain rfl : flow = .proceed := by grind only
      rfl
  | leave kind =>
      cases kind with
      | none =>
          cases h
          trivial
      | some kind =>
          obtain ⟨x, -, h⟩ := Except.bind_eq_ok.1 h
          cases h
          trivial
  | monitorEnter | monitorExit =>
      obtain ⟨x, -, h⟩ := Except.bind_eq_ok.1 h
      dsimp only at h
      split at h
      · cases h
      · cases h
        rfl
  | increment index delta =>
      obtain ⟨v, -, h⟩ := Except.bind_eq_ok.1 h
      cases v with
      | int n =>
          obtain ⟨f, -, h⟩ := Except.bind_eq_ok.1 h
          cases h
          rfl
      | _ => cases h
  | ifZero condition target | ifCompare condition target | ifSame same target
  | ifNull null target =>
      simp only [execute, branch, Except.bind_eq_ok, pure, Except.pure, Except.ok.injEq,
        Prod.mk.injEq] at h
      obtain rfl | rfl : flow = .jump target ∨ flow = .proceed := by grind only
      · exact List.mem_singleton_self target
      · rfl
  | goto target =>
      cases h
      exact List.mem_singleton_self target
  | tableSwitch low otherwise targets =>
      simp only [execute, branch, Except.bind_eq_ok, pure, Except.pure, Except.ok.injEq,
        Prod.mk.injEq] at h
      obtain ⟨_, ⟨n, -, rfl⟩, rfl, -⟩ := h
      exact tableTarget_mem_targets low n.1 otherwise targets
  | lookupSwitch otherwise entries =>
      simp only [execute, branch, Except.bind_eq_ok, pure, Except.pure, Except.ok.injEq,
        Prod.mk.injEq] at h
      obtain ⟨_, ⟨n, -, rfl⟩, rfl, -⟩ := h
      exact lookupTarget_mem_targets n.1 otherwise entries

end ValueFrame

namespace Activation

variable {m : Machine} {a b : Activation} {i : Instruction}

/-- True if the activation is of a body that has passed analysis, at a position that execution may
get to. -/
structure OnPath (a : Activation) : Prop where
  analyzed : ∃ frames, a.method.analyze a.owner = .ok frames
  reached : a.method.body.Reaches a.position

/-- True if the first activation's current instruction is an invocation of the second one's
method. -/
def Invokes (m : Machine) (a b : Activation) : Prop :=
  ∃ kind method, a.method.body.get? a.position = some (.invoke kind method) ∧
    m.method? method = some b.method ∧ method.owner = b.owner

theorem OnPath.exists_get? (h : a.OnPath) : ∃ i, a.method.body.get? a.position = some i := by
  obtain ⟨frames, hframes⟩ := h.analyzed
  have analyzed := Method.analyzed_of_analyze hframes
  obtain ⟨g, hg⟩ := (analyzed.reaches_iff a.position).2 h.reached
  exact Body.get?_of_lt (analyzed.length ▸ Frames.lt_of_at? hg)

theorem OnPath.next (h : a.OnPath) (hi : a.method.body.get? a.position = some i)
    (falls : i.fallsThrough) (f : ValueFrame) :
    OnPath { a with position := a.position + 1, frame := f } :=
  ⟨h.analyzed, .step h.reached (.next hi falls)⟩

/-- Jumps of a body that has passed analysis get somewhere. -/
theorem OnPath.jump (h : a.OnPath) (hi : a.method.body.get? a.position = some i) {l : Label}
    (hl : l ∈ i.targets) :
    ∃ q, a.method.body.position? l = some q ∧ ∀ f, OnPath { a with position := q, frame := f } := by
  obtain ⟨frames, hframes⟩ := h.analyzed
  obtain ⟨places, hplaces⟩ := (Method.analyzed_of_analyze hframes).labels
  obtain ⟨q, hq⟩ := Body.position?_of_mem_targets hplaces hi hl
  exact ⟨q, hq, fun f => ⟨h.analyzed, .step h.reached (.jump hi hl hq)⟩⟩

end Activation

namespace CallState

/-- How an error arises in the running method, and the world at that moment: there's no room for
another instruction, or the instruction fails, or it's an invocation that doesn't get to a body. -/
inductive Raises (m : Machine) (s : CallState) : MachineError → World → Prop
  | limit {i : Instruction} {limit : Nat}
      (here : s.current.method.body.get? s.current.position = some i)
      (limited : m.limits.instructions = some limit) (full : limit ≤ s.executed) :
      Raises m s (.instructionLimit limit) s.world
  | instruction {i : Instruction} {cause : MachineError}
      (here : s.current.method.body.get? s.current.position = some i)
      (fails : s.current.frame.execute s.world i = .error cause) : Raises m s cause s.world
  | invocation {kind : InvokeKind} {method : MethodRef} {args : List Value} {f : ValueFrame}
      {w u : World} {cause : MachineError}
      (here : s.current.method.body.get? s.current.position = some (.invoke kind method))
      (invokes : s.current.frame.execute s.world (.invoke kind method) =
        .ok (.call kind method args, f, w))
      (fails : m.invoke s.active.length w kind method args = .failed cause u) : Raises m s cause u

/-- True if all active methods are on paths that the analysis knows, and each but the innermost one
is at the invocation of the next inner one. -/
structure Traced (m : Machine) (s : CallState) : Prop where
  onPath : ∀ a ∈ s.active, a.OnPath
  invokes : List.IsChain (fun b a => a.Invokes m b) s.active

namespace Traced

variable {m : Machine} {s : CallState} {a b : Activation} {callers : List Activation}

/-- The running method may go on elsewhere. -/
theorem goOn (hs : s.Traced m) (ha : a.OnPath) (same : a.SameMethod s.current) (w : World)
    (n : Nat) : Traced m ⟨w, n, a, s.callers⟩ := by
  obtain ⟨-, hcallers⟩ := List.forall_mem_cons.1 hs.onPath
  refine ⟨List.forall_mem_cons.2 ⟨ha, hcallers⟩, ?_⟩
  have hinvokes := hs.invokes
  simp only [active] at hinvokes ⊢
  cases hwaiting : s.callers with
  | nil => exact .singleton a
  | cons b callers =>
      rw [hwaiting, List.isChain_cons_cons] at hinvokes
      refine List.isChain_cons_cons.2 ⟨?_, hinvokes.2⟩
      obtain ⟨kind, method, here, found, howner⟩ := hinvokes.1
      exact ⟨kind, method, here, same.method ▸ found, same.owner ▸ howner⟩

/-- The running method may enter the one that it invokes. -/
theorem enter (hs : s.Traced m) (ha : a.OnPath) (invokes : s.current.Invokes m a) (f : ValueFrame)
    (w : World) (n : Nat) : Traced m ⟨w, n, a, { s.current with frame := f } :: s.callers⟩ := by
  obtain ⟨hcurrent, hcallers⟩ := List.forall_mem_cons.1 hs.onPath
  have hwaits : Traced m ⟨w, n, { s.current with frame := f }, s.callers⟩ :=
    hs.goOn (a := { s.current with frame := f }) ⟨hcurrent.analyzed, hcurrent.reached⟩
      ⟨rfl, rfl⟩ w n
  exact ⟨List.forall_mem_cons.2 ⟨ha, hwaits.onPath⟩,
    List.isChain_cons_cons.2 ⟨invokes, hwaits.invokes⟩⟩

/-- The innermost caller goes on behind its invocation once the running method is left. -/
theorem leave (hs : s.Traced m) (hcallers : s.callers = b :: callers) (f : ValueFrame) (w : World)
    (n : Nat) : Traced m ⟨w, n, { b with position := b.position + 1, frame := f }, callers⟩ := by
  have hinvokes := hs.invokes
  have honPath := hs.onPath
  simp only [active, hcallers, List.isChain_cons_cons, List.forall_mem_cons] at hinvokes honPath
  obtain ⟨⟨kind, method, here, -⟩, hrest⟩ := hinvokes
  have hb : Traced m ⟨w, n, b, callers⟩ :=
    ⟨List.forall_mem_cons.2 ⟨honPath.2.1, honPath.2.2⟩, hrest⟩
  exact hb.goOn (honPath.2.1.next here rfl f) ⟨rfl, rfl⟩ w n

end Traced

end CallState

namespace Machine

variable {m : Machine} {s t : CallState} {trail : List CallState} {c : Completion}

/-- What comes of a step where all active methods are on their paths: they stay so, or the last one
is left, or an error arises in the innermost one. -/
inductive Outcome (m : Machine) (s : CallState) : CallStatus → Prop
  | running {t : CallState} (traced : t.Traced m) : Outcome m s (.running t)
  | left (result : Option Value) (w : World) : Outcome m s (.over ⟨.ok result, w⟩)
  | failed {cause : MachineError} {w : World} (raises : s.Raises m cause w) :
      Outcome m s (.failed cause s.active w)

theorem outcome_execute (hm : m.Verified) (hs : s.Traced m) {i : Instruction}
    (hi : s.current.method.body.get? s.current.position = some i) :
    Outcome m s (step.execute m s i) := by
  have hcurrent := hs.onPath s.current List.mem_cons_self
  unfold step.execute
  cases hexecute : s.current.frame.execute s.world i with
  | error cause => exact .failed (.instruction hi hexecute)
  | ok outcome =>
      obtain ⟨flow, f, w⟩ := outcome
      have hfollows := ValueFrame.leads_of_execute hexecute
      cases flow with
      | proceed =>
          exact .running (hs.goOn (hcurrent.next hi hfollows f) ⟨rfl, rfl⟩ w _)
      | jump target =>
          obtain ⟨q, hq, honPath⟩ := hcurrent.jump hi hfollows
          simp only [follow, hq]
          exact .running (hs.goOn (honPath f) ⟨rfl, rfl⟩ w _)
      | leave result =>
          simp only [follow, CallState.leave]
          cases hcallers : s.callers with
          | nil => exact .left result w
          | cons b callers => exact .running (hs.leave hcallers _ w _)
      | call kind method args =>
          obtain rfl := ValueFrame.eq_invoke_of_call hexecute
          simp only [follow]
          cases hinvoke : m.invoke (s.callers.length + 1) w kind method args with
          | failed cause u => exact .failed (.invocation hi hexecute hinvoke)
          | returned result u =>
              exact .running (hs.goOn (hcurrent.next hi rfl _) ⟨rfl, rfl⟩ u _)
          | entered a =>
              obtain ⟨d, hd, hbody, rfl, -⟩ := enters_of_invoke hinvoke rfl w
              have honPath : Activation.OnPath
                  ⟨method.owner, d, 0, .entry args d.maxLocals.toNat⟩ :=
                ⟨hm method d hd hbody, .entry⟩
              exact .running (hs.enter honPath ⟨kind, method, hi, hd, rfl⟩ f w _)

theorem outcome_step (hm : m.Verified) (hs : s.Traced m) : Outcome m s (m.step s) := by
  obtain ⟨i, hi⟩ := (hs.onPath s.current List.mem_cons_self).exists_get?
  simp only [step, hi]
  cases hlimit : m.limits.instructions with
  | none => exact outcome_execute hm hs hi
  | some limit =>
      dsimp only
      split
      · rename_i hfull
        exact .failed (.limit hi hlimit hfull)
      · exact outcome_execute hm hs hi

/-- A call that fails has got to a state in which the error has arisen, and the trace names the
methods that are active there. -/
theorem Completes.exists_raises (hm : m.Verified) (hs : s.Traced m)
    (h : m.Completes (.running s) trail c) {error : CallError} (hc : c.result = .error error) :
    ∃ before t, m.Advances s before t ∧ t.Traced m ∧ t.Raises m error.cause c.world ∧
      error.trace = t.active.map Activation.tracePoint := by
  generalize hstatus : CallStatus.running s = status at h
  induction h generalizing s with
  | «over» c => cases hstatus
  | @step s₁ trail c rest ih =>
      obtain rfl : s = s₁ := CallStatus.running.inj hstatus
      have houtcome := outcome_step hm hs
      generalize hstep : m.step s = next at houtcome
      cases houtcome with
      | @running t traced =>
          obtain ⟨before, u, hu, htraced, hraises, htrace⟩ := ih traced hc hstep.symm
          exact ⟨s :: before, u, .step hstep hu, htraced, hraises, htrace⟩
      | left result w =>
          rw [hstep] at rest
          cases rest
          cases hc
      | failed raises =>
          rw [hstep] at rest
          cases rest
          cases hc
          exact ⟨[], s, .refl s, hs, raises, rfl⟩

theorem traced_of_start {w : World} {owner name descriptor : String} {args : List Value}
    (hm : m.Verified) (h : m.start w owner name descriptor args = .running s) : s.Traced m := by
  obtain ⟨type, d, hd, hbody, rfl⟩ := exists_of_start h
  exact ⟨List.forall_mem_singleton.2 ⟨hm _ d hd hbody, .entry⟩, .singleton _⟩

end Machine

namespace Engine

variable {e e' : Engine} {fuel : Nat} {w w' : World} {owner name descriptor : String}
  {args : List Value} {type : MethodType} {d : Method} {error : CallError}

/-- The trace of a call that fails after its arguments have been accepted.  If no body has been
entered, there's nothing in it.  Otherwise it has one entry for each method that was active when the
error arose, the innermost one first, with the position of its current instruction, which is the
invocation of the next inner one in all but the innermost. -/
theorem Attained.trace_of_call (h : e.Attained)
    (hparse : MethodType.parse descriptor = .ok type)
    (hd : e.machine.method? ⟨owner, name, type⟩ = some d)
    (hargs : Machine.checkArguments w ⟨owner, name, type⟩ (Machine.startKind d) args = .ok ())
    (hcall : e.call fuel w owner name descriptor args = some ⟨.error error, e', w'⟩) :
    (error.trace = [] ∧ e.machine.invoke 0 w (Machine.startKind d) ⟨owner, name, type⟩ args =
        .failed error.cause w') ∨
      ∃ s₀ trail s, e.machine.start w owner name descriptor args = .running s₀ ∧
        e.machine.Advances s₀ trail s ∧ s.Raises e.machine error.cause w' ∧
        error.trace = s.active.map (fun a => ⟨s!"{a.owner}.{a.method.signature}", a.position⟩) ∧
        List.IsChain (fun callee caller => caller.Invokes e.machine callee) s.active ∧
        s.root.owner = owner ∧ s.root.method = d := by
  obtain ⟨hidle, hassembled⟩ := h.idle
  obtain ⟨-, trail, hc⟩ := completes_of_call hidle hcall
  have hstart : e.machine.start w owner name descriptor args = _ := Machine.start_eq hparse hd
  rw [hargs] at hstart
  dsimp only at hstart
  cases hinvoke : e.machine.invoke 0 w (Machine.startKind d) ⟨owner, name, type⟩ args with
  | failed cause u =>
      rw [hinvoke] at hstart
      rw [hstart] at hc
      cases hc
      exact .inl ⟨rfl, rfl⟩
  | returned result u =>
      rw [hinvoke] at hstart
      rw [hstart] at hc
      cases hc
  | entered a =>
      rw [hinvoke] at hstart
      rw [hstart] at hc
      obtain ⟨d', hd', -, rfl, -⟩ := Machine.enters_of_invoke hinvoke rfl w
      obtain rfl : d' = d := Option.some.inj (hd'.symm.trans hd)
      have htraced := Machine.traced_of_start hassembled.verified hstart
      obtain ⟨before, s, hs, hstraced, hraises, htrace⟩ :=
        hc.exists_raises hassembled.verified htraced rfl
      exact .inr ⟨_, before, s, hstart, hs, hraises, htrace, hstraced.invokes, hs.root.owner,
        hs.root.method⟩

theorem call_throwing : (throwing .standard).call 4 .empty "Demo" "relay" "()V" [] =
    some ⟨.error ⟨.thrown (.object 0), [⟨"Demo.thrower()V", 1⟩, ⟨"Demo.relay()V", 1⟩]⟩,
      throwing .standard, ⟨#[.string "oops"], #[], []⟩⟩ := by
  simp only [call, MethodType.parse_plain]
  rfl

/-- The thrower throws at its second instruction, and the relay waits at its own second one. -/
theorem trace_of_call_throwing : ∃ s₀ trail s,
    (throwing .standard).machine.start .empty "Demo" "relay" "()V" [] = .running s₀ ∧
      (throwing .standard).machine.Advances s₀ trail s ∧
      s.Raises (throwing .standard).machine (.thrown (.object 0)) ⟨#[.string "oops"], #[], []⟩ ∧
      s.active.map Activation.tracePoint = [⟨"Demo.thrower()V", 1⟩, ⟨"Demo.relay()V", 1⟩] := by
  rcases (attained_throwing .standard).trace_of_call MethodType.parse_plain rfl rfl call_throwing
    with ⟨hempty, -⟩ | ⟨s₀, trail, s, hstart, hs, hraises, htrace, -⟩
  · cases hempty
  · exact ⟨s₀, trail, s, hstart, hs, hraises, htrace.symm⟩

end Engine

end Resumable
