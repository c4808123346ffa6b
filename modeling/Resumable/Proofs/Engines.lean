import Resumable.Machine.Nested
import Resumable.Proofs.Calls

/-!
# Engines and machines

An engine answers a call as its machine does.  While it executes a body, the recursion stands for
the list of callers: the depth is their number, and what the body comes to is what the machine gets
to when it leaves the method or fails in it.
-/

namespace Resumable

namespace Machine

variable {m : Machine} {s t : CallState} {status status' : CallStatus} {trail : List CallState}
  {c : Completion}

/-- True if a call gets from a state to a status, by one step at least. -/
inductive Gets (m : Machine) : CallState → CallStatus → Prop
  | last (s : CallState) : Gets m s (m.step s)
  | step {s t : CallState} {status : CallStatus} (next : m.step s = .running t)
      (rest : Gets m t status) : Gets m s status

theorem Gets.of_step (h : m.step s = status) : m.Gets s status := h ▸ .last s

theorem Gets.trans (h : m.Gets s (.running t)) (k : m.Gets t status) : m.Gets s status := by
  generalize hmid : CallStatus.running t = mid at h
  induction h with
  | last s => exact .step hmid.symm k
  | step next _ ih => exact .step next (ih hmid)

/-- A call ends as it does from a status that it gets to. -/
theorem Gets.completes (h : m.Gets s status) (k : m.Completes status trail c) :
    ∃ trail', m.Completes (.running s) trail' c := by
  induction h with
  | last s => exact ⟨s :: trail, .step k⟩
  | step next _ ih =>
      obtain ⟨trail', h'⟩ := ih k
      exact ⟨_ :: trail', .step (next ▸ h')⟩

/-- What a call gets to is on its way to the end. -/
theorem Gets.shorter (h : m.Gets s status) (k : m.Completes (.running s) trail c) :
    ∃ trail', m.Completes status trail' c ∧ trail'.length < trail.length := by
  induction h generalizing trail with
  | last s =>
      obtain _ | rest := k
      exact ⟨_, rest, Nat.lt_succ_self _⟩
  | step next _ ih =>
      obtain _ | rest := k
      rw [next] at rest
      obtain ⟨trail', h', hshorter⟩ := ih rest
      exact ⟨trail', h', Nat.lt_succ_of_lt hshorter⟩

end Machine

/-- What comes of a body whose method is left or has failed, while the callers wait for it. -/
def CallState.ended (s : CallState) : Except CallError (Option Value) → CallStatus
  | .ok result => s.leave result
  | .error error =>
    .over ⟨.error ⟨error.cause, error.trace ++ s.callers.map Activation.tracePoint⟩, s.world⟩

/-- With the outermost method the call is over. -/
theorem CallState.ended_of_outermost {s : CallState} (h : s.callers = [])
    (result : Except CallError (Option Value)) : s.ended result = .over ⟨result, s.world⟩ := by
  cases result with
  | ok result => simp only [ended, leave, h]
  | error error => simp only [ended, h, List.map_nil, List.append_nil]

/-- What an instruction's way is to the machine. -/
def Way.flow : Way → Flow
  | proceed => .proceed
  | jump target => .jump target
  | leave result => .leave result

namespace Engine

variable {e : Engine} {m : Machine} {s t : CallState} {run run' : Runner} {fuel : Nat}
  {i : Instruction}

/-- True if the engine has counted what's in the state. -/
structure Tallies (e : Engine) (m : Machine) (s : CallState) : Prop where
  machine : e.machine = m
  callDepth : e.callDepth = s.callers.length + 1
  executed : m.limits.instructions.isSome → e.executed = s.executed

/-- True if the runner executes bodies as the machine does. -/
def Sound (run : Runner) : Prop :=
  ∀ ⦃e : Engine⦄ ⦃m : Machine⦄ ⦃s : CallState⦄ ⦃ending : Ending (Option Value)⦄, e.Tallies m s →
    run e s.world s.current = some ending →
    ∃ t, m.Gets s (t.ended ending.result) ∧ t.callers = s.callers ∧ t.world = ending.world ∧
      ending.engine.Tallies m t

/-- What the machine gets to when the engine has executed an instruction. -/
inductive Comes (m : Machine) (s : CallState) : Ending (Way × ValueFrame) → Prop
  | failed {e : Engine} {error : CallError} (t : CallState) (callers : t.callers = s.callers)
      (tallies : e.Tallies m t)
      (gets : m.Gets s (t.ended (.error (error.extend s.current.tracePoint)))) :
      Comes m s ⟨.error error, e, t.world⟩
  | followed {e : Engine} {way : Way} {f : ValueFrame} (t : CallState)
      (callers : t.callers = s.callers) (tallies : e.Tallies m t)
      (current : t.current = { s.current with frame := f })
      (gets : m.Gets s (m.follow t way.flow)) :
      Comes m s ⟨.ok (way, f), e, t.world⟩

/-- Where an invocation has returned, the machine goes on like after any instruction. -/
theorem follow_resumed (s : CallState) (result : Option Value) :
    m.follow { s with
        current := { s.current with frame := Machine.pushResult s.current.frame result } }
        .proceed =
      .running { s with current := CallState.resumed s.current result } := by
  cases result <;> rfl

/-- The invocation of a state that has taken the arguments off the operand stack. -/
theorem comes_invoke (hrun : Sound run) (he : e.Tallies m t) {kind : InvokeKind}
    {method : MethodRef} {args : List Value} {f : ValueFrame} {ending : Ending (Option Value)}
    (hcallers : t.callers = s.callers) (hcurrent : t.current = { s.current with frame := f })
    (hstep : m.step s = m.follow t (.call kind method args))
    (h : invoke run e t.world kind method args = some ending) :
    Comes m s { ending with
      result := ending.result.map fun result => (.proceed, Machine.pushResult f result) } := by
  have hpoint : t.current.tracePoint = s.current.tracePoint := by rw [hcurrent]; rfl
  obtain rfl := he.machine
  rw [invoke, he.callDepth] at h
  rw [Machine.follow] at hstep
  cases hinvoke : e.machine.invoke (t.callers.length + 1) t.world kind method args with
  | failed cause w =>
      rw [hinvoke] at h hstep
      cases h
      refine .failed { t with world := w } hcallers ⟨he.machine, he.callDepth, he.executed⟩
        (.of_step (hstep.trans ?_))
      simp only [CallStatus.failed, CallState.ended, CallError.extend, List.map_cons, hpoint]
      rfl
  | returned result w =>
      rw [hinvoke] at h hstep
      cases h
      refine .followed { t with
        world := w
        current := { t.current with frame := Machine.pushResult t.current.frame result } } hcallers
        ⟨he.machine, he.callDepth, he.executed⟩ ?_ (.of_step (hstep.trans ?_))
      · rw [hcurrent]
      · exact (follow_resumed { t with world := w } result).symm
  | entered a =>
      rw [hinvoke] at h hstep
      obtain ⟨inner, hinner, rfl⟩ := Option.map_eq_some_iff.1 h
      obtain ⟨u, hgets, hwaiting, hworld, htallies⟩ :=
        hrun (e := { e with callDepth := t.callers.length + 1 + 1 })
          (s := { t with current := a, callers := t.current :: t.callers })
          ⟨rfl, rfl, he.executed⟩ hinner
      have hgets' := Machine.Gets.step hstep hgets
      have hdepth : inner.engine.callDepth - 1 = t.callers.length + 1 := by
        rw [htallies.callDepth, hwaiting]
        rfl
      obtain ⟨result, e', w⟩ := inner
      obtain rfl : u.world = w := hworld
      cases result with
      | error error =>
          refine .failed { u with callers := t.callers } hcallers
            ⟨htallies.machine, hdepth, htallies.executed⟩ ?_
          simpa [CallState.ended, CallError.extend, hwaiting, hpoint] using hgets'
      | ok result =>
          refine .followed { u with
            callers := t.callers
            current := { t.current with frame := Machine.pushResult t.current.frame result } }
            hcallers ⟨htallies.machine, hdepth, htallies.executed⟩ ?_ ?_
          · rw [hcurrent]
          · rw [CallState.ended, CallState.leave, hwaiting] at hgets'
            have hresumed := follow_resumed (m := e.machine)
              { u with callers := t.callers, current := t.current } result
            exact hresumed ▸ hgets'

/-- Once it's counted, an instruction is executed as the machine does it. -/
theorem comes_perform (hrun : Sound run) (he : e.Tallies m { s with executed := s.executed + 1 })
    {ending : Ending (Way × ValueFrame)} (hstep : m.step s = Machine.step.execute m s i)
    (h : perform run e s.world s.current.frame i = some ending) : Comes m s ending := by
  unfold Machine.step.execute at hstep
  unfold perform at h
  cases hexecute : s.current.frame.execute s.world i with
  | error cause =>
      rw [hexecute] at h hstep
      cases h
      exact .failed { s with executed := s.executed + 1 } rfl he (.of_step hstep)
  | ok outcome =>
      obtain ⟨flow, f, w⟩ := outcome
      rw [hexecute] at h hstep
      let t : CallState := { s with
        world := w
        executed := s.executed + 1
        current := { s.current with frame := f } }
      have ht : e.Tallies m t := ⟨he.machine, he.callDepth, he.executed⟩
      cases flow with
      | proceed =>
          cases h
          exact .followed t rfl ht rfl (.of_step hstep)
      | jump target =>
          cases h
          exact .followed t rfl ht rfl (.of_step hstep)
      | leave result =>
          cases h
          exact .followed t rfl ht rfl (.of_step hstep)
      | call kind method args =>
          obtain ⟨inner, hinner, rfl⟩ := Option.map_eq_some_iff.1 h
          exact comes_invoke (t := t) hrun ht rfl rfl hstep hinner

theorem comes_count (hrun : Sound run) (he : e.Tallies m s)
    (hi : s.current.method.body.get? s.current.position = some i)
    {ending : Ending (Way × ValueFrame)}
    (h : count run e s.world s.current.frame i = some ending) : Comes m s ending := by
  obtain rfl := he.machine
  rw [count] at h
  cases hlimit : e.machine.limits.instructions with
  | none =>
      have hstep : e.machine.step s = Machine.step.execute e.machine s i := by
        simp only [Machine.step, hi, hlimit]
      rw [hlimit] at h
      exact comes_perform hrun ⟨he.machine, he.callDepth, by simp [hlimit]⟩ hstep h
  | some limit =>
      have hstep : e.machine.step s =
          if limit ≤ s.executed then
            .failed (.instructionLimit limit) (s.current :: s.callers) s.world
          else Machine.step.execute e.machine s i := by
        simp only [Machine.step, hi, hlimit]
      rw [hlimit] at h
      dsimp only at h
      have hexecuted : e.executed = s.executed := he.executed (by simp [hlimit])
      by_cases hfull : limit ≤ s.executed
      · rw [if_pos hfull] at hstep
        rw [if_pos (by omega)] at h
        cases h
        refine .failed { s with executed := s.executed + 1 } rfl
          ⟨he.machine, he.callDepth, fun _ => by simp [hexecuted]⟩ (.of_step hstep)
      · rw [if_neg hfull] at hstep
        rw [if_neg (by omega)] at h
        exact comes_perform (e := { e with executed := e.executed + 1 }) hrun
          ⟨he.machine, he.callDepth, fun _ => by simp [hexecuted]⟩ hstep h

theorem execute_of_get? {w : World} {a : Activation}
    (hi : a.method.body.get? a.position = some i) :
    execute (fuel + 1) e w a =
      (count (execute fuel) e w a.frame i).bind (follow (execute fuel) a) := by
  rw [execute, hi]

/-- Bodies are executed as the machine does it. -/
theorem sound_execute (fuel : Nat) : Sound (execute fuel) := by
  induction fuel with
  | zero =>
      intro e m s ending he h
      cases h
  | succ fuel ih =>
      intro e m s ending he h
      cases hi : s.current.method.body.get? s.current.position with
      | none =>
          rw [execute, hi] at h
          cases h
          refine ⟨s, .of_step ?_, rfl, rfl, he⟩
          simp only [Machine.step, hi]
          rfl
      | some i =>
          rw [execute_of_get? hi] at h
          obtain ⟨performed, hcount, h⟩ := Option.bind_eq_some_iff.1 h
          cases comes_count ih he hi hcount with
          | failed t callers tallies gets =>
              cases h
              exact ⟨t, gets, callers, rfl, tallies⟩
          | @followed e' way f t callers tallies current gets =>
              obtain ⟨w, n, a, waiting⟩ := t
              dsimp only at callers current
              subst callers current
              -- What comes after the instruction stands for a state of the machine again.
              have hrest : ∀ position, m.Gets s (.running
                    ⟨w, n, { s.current with position, frame := f }, s.callers⟩) →
                  execute fuel e' w { s.current with position, frame := f } = some ending →
                  ∃ t, m.Gets s (t.ended ending.result) ∧ t.callers = s.callers ∧
                    t.world = ending.world ∧ ending.engine.Tallies m t := by
                intro position hgets hexecute
                obtain ⟨t, hrest, hends⟩ := ih
                  (s := ⟨w, n, { s.current with position, frame := f }, s.callers⟩)
                  ⟨tallies.machine, tallies.callDepth, tallies.executed⟩ hexecute
                exact ⟨t, hgets.trans hrest, hends⟩
              cases way with
              | proceed => exact hrest _ gets h
              | jump target =>
                  simp only [Way.flow, Machine.follow] at gets
                  rw [follow] at h
                  cases hplace : s.current.method.body.position? target with
                  | none =>
                      rw [hplace] at h gets
                      cases h
                      exact ⟨⟨w, n, s.current, s.callers⟩, gets, rfl, rfl,
                        ⟨tallies.machine, tallies.callDepth, tallies.executed⟩⟩
                  | some position =>
                      rw [hplace] at h gets
                      exact hrest position gets h
              | leave result =>
                  cases h
                  exact ⟨_, gets, rfl, rfl, tallies⟩

/-- True if the second runner does whatever the first one gets done. -/
def Covers (run' run : Runner) : Prop :=
  ∀ ⦃e : Engine⦄ ⦃w : World⦄ ⦃a : Activation⦄ ⦃ending : Ending (Option Value)⦄,
    run e w a = some ending → run' e w a = some ending

theorem Covers.invoke (hrun : Covers run' run) {w : World} {kind : InvokeKind} {method : MethodRef}
    {args : List Value} {ending : Ending (Option Value)}
    (h : Engine.invoke run e w kind method args = some ending) :
    Engine.invoke run' e w kind method args = some ending := by
  rw [Engine.invoke] at h ⊢
  cases hinvoke : e.machine.invoke e.callDepth w kind method args with
  | failed cause w =>
      rw [hinvoke] at h
      exact h
  | returned result w =>
      rw [hinvoke] at h
      exact h
  | entered a =>
      rw [hinvoke] at h
      obtain ⟨inner, hinner, rfl⟩ := Option.map_eq_some_iff.1 h
      exact Option.map_eq_some_iff.2 ⟨inner, hrun hinner, rfl⟩

theorem Covers.perform (hrun : Covers run' run) {w : World} {f : ValueFrame}
    {ending : Ending (Way × ValueFrame)} (h : Engine.perform run e w f i = some ending) :
    Engine.perform run' e w f i = some ending := by
  unfold Engine.perform at h ⊢
  split at h
  case h_5 kind method args f w hexecute =>
    obtain ⟨inner, hinner, rfl⟩ := Option.map_eq_some_iff.1 h
    exact Option.map_eq_some_iff.2 ⟨inner, hrun.invoke hinner, rfl⟩
  all_goals exact h

theorem Covers.count (hrun : Covers run' run) {w : World} {f : ValueFrame}
    {ending : Ending (Way × ValueFrame)} (h : Engine.count run e w f i = some ending) :
    Engine.count run' e w f i = some ending := by
  unfold Engine.count at h ⊢
  split at h
  · dsimp only at h ⊢
    split at h
    · rename_i hfull
      rw [if_pos hfull]
      exact h
    · rename_i hroom
      rw [if_neg hroom]
      exact hrun.perform h
  · exact hrun.perform h

theorem Covers.follow (hrun : Covers run' run) {a : Activation}
    {performed : Ending (Way × ValueFrame)} {ending : Ending (Option Value)}
    (h : Engine.follow run a performed = some ending) :
    Engine.follow run' a performed = some ending := by
  obtain ⟨_ | ⟨_ | target | _, _⟩, _, _⟩ := performed
  · exact h
  · exact hrun h
  · simp only [Engine.follow] at h ⊢
    split at h
    · exact hrun h
    · exact h
  · exact h

/-- More fuel doesn't change what comes of a body. -/
theorem covers_execute (fuel : Nat) : Covers (execute (fuel + 1)) (execute fuel) := by
  induction fuel with
  | zero =>
      intro e w a ending h
      cases h
  | succ fuel ih =>
      intro e w a ending h
      cases hi : a.method.body.get? a.position with
      | none =>
          rw [execute, hi] at h ⊢
          exact h
      | some i =>
          rw [execute_of_get? hi] at h ⊢
          obtain ⟨performed, hcount, hfollow⟩ := Option.bind_eq_some_iff.1 h
          exact Option.bind_eq_some_iff.2 ⟨performed, ih.count hcount, ih.follow hfollow⟩

theorem covers_of_le {n k : Nat} (h : n ≤ k) : Covers (execute k) (execute n) := by
  induction h with
  | refl => exact fun _ _ _ _ h => h
  | step _ ih => exact fun _ _ _ _ h => covers_execute _ (ih h)

/-- An instruction that has been counted gets done, if a method that it enters gets done. -/
theorem exists_perform (he : e.Tallies m { s with executed := s.executed + 1 })
    (hstep : m.step s = Machine.step.execute m s i)
    (entered : ∀ e' t, Tallies e' m t → m.step s = .running t →
      ∃ fuel ending, execute fuel e' t.world t.current = some ending) :
    ∃ fuel ending, perform (execute fuel) e s.world s.current.frame i = some ending := by
  obtain rfl := he.machine
  rw [hstep, Machine.step.execute] at entered
  unfold perform
  cases hexecute : s.current.frame.execute s.world i with
  | error cause => exact ⟨0, _, rfl⟩
  | ok outcome =>
      obtain ⟨flow, f, w⟩ := outcome
      cases flow with
      | proceed => exact ⟨0, _, rfl⟩
      | jump target => exact ⟨0, _, rfl⟩
      | leave result => exact ⟨0, _, rfl⟩
      | call kind method args =>
          rw [hexecute] at entered
          simp only [Machine.follow, ← he.callDepth] at entered
          simp only [invoke]
          cases hinvoke : e.machine.invoke e.callDepth w kind method args with
          | failed cause w => exact ⟨0, _, rfl⟩
          | returned result w => exact ⟨0, _, rfl⟩
          | entered a =>
              rw [hinvoke] at entered
              obtain ⟨fuel, ending, h⟩ := entered { e with callDepth := e.callDepth + 1 }
                ⟨w, s.executed + 1, a, { s.current with frame := f } :: s.callers⟩
                ⟨rfl, by simp [he.callDepth], he.executed⟩ rfl
              exact ⟨fuel, _, by simp only [h, Option.map_some]; rfl⟩

theorem exists_count (he : e.Tallies m s)
    (hi : s.current.method.body.get? s.current.position = some i)
    (entered : ∀ e' t, Tallies e' m t → m.step s = .running t →
      ∃ fuel ending, execute fuel e' t.world t.current = some ending) :
    ∃ fuel ending, count (execute fuel) e s.world s.current.frame i = some ending := by
  obtain rfl := he.machine
  unfold count
  cases hlimit : e.machine.limits.instructions with
  | none =>
      refine exists_perform ⟨rfl, he.callDepth, by simp [hlimit]⟩ ?_ entered
      simp only [Machine.step, hi, hlimit]
  | some limit =>
      have hexecuted : e.executed = s.executed := he.executed (by simp [hlimit])
      dsimp only
      by_cases hfull : limit < e.executed + 1
      · simp only [if_pos hfull]
        exact ⟨0, _, rfl⟩
      · simp only [if_neg hfull]
        refine exists_perform ⟨rfl, he.callDepth, fun _ => by simp [hexecuted]⟩ ?_ entered
        simp only [Machine.step, hi, hlimit]
        rw [if_neg (by omega)]

/-- The engine gets done what the machine comes to an end with. -/
theorem exists_execute {trail : List CallState} {c : Completion} (he : e.Tallies m s)
    (h : m.Completes (.running s) trail c) :
    ∃ fuel ending, execute fuel e s.world s.current = some ending := by
  -- A method that's entered, and what comes after an instruction, are both nearer to the end.
  induction hn : trail.length using Nat.strongRecOn generalizing e s trail with
  | ind n ih =>
  cases hi : s.current.method.body.get? s.current.position with
  | none => exact ⟨1, _, by rw [execute, hi]; rfl⟩
  | some i =>
      have hstep : ∀ e' t, Tallies e' m t → m.Gets s (.running t) →
          ∃ fuel ending, execute fuel e' t.world t.current = some ending := by
        intro e' t ht hgets
        obtain ⟨trail', h', hshorter⟩ := hgets.shorter h
        exact ih _ (hn ▸ hshorter) ht h' rfl
      obtain ⟨n, performed, hcount⟩ :=
        exists_count he hi fun e' t ht hnext => hstep e' t ht (.of_step hnext)
      have hgoesOn : ∀ k ending, follow (execute k) s.current performed = some ending →
          ∃ fuel ending, execute fuel e s.world s.current = some ending := by
        intro k ending hfollow
        refine ⟨max n k + 1, ending, ?_⟩
        rw [execute_of_get? hi]
        exact Option.bind_eq_some_iff.2 ⟨performed,
          (covers_of_le (Nat.le_max_left ..)).count hcount,
          (covers_of_le (Nat.le_max_right ..)).follow hfollow⟩
      cases comes_count (sound_execute n) he hi hcount with
      | failed t callers tallies gets => exact hgoesOn 0 _ rfl
      | @followed e' way f t callers tallies current gets =>
          obtain ⟨w, k, a, waiting⟩ := t
          dsimp only at callers current
          subst callers current
          have hrest : ∀ position, m.Gets s (.running
                ⟨w, k, { s.current with position, frame := f }, s.callers⟩) →
              ∃ fuel ending,
                execute fuel e' w { s.current with position, frame := f } = some ending :=
            fun position => hstep e' ⟨w, k, { s.current with position, frame := f }, s.callers⟩
              ⟨tallies.machine, tallies.callDepth, tallies.executed⟩
          cases way with
          | proceed =>
              obtain ⟨fuel, ending, h⟩ := hrest _ gets
              exact hgoesOn fuel ending h
          | jump target =>
              simp only [Way.flow, Machine.follow] at gets
              cases hplace : s.current.method.body.position? target with
              | none => exact hgoesOn 0 _ (by simp only [follow, hplace]; rfl)
              | some position =>
                  rw [hplace] at gets
                  obtain ⟨fuel, ending, h⟩ := hrest position gets
                  exact hgoesOn fuel ending (by simp only [follow, hplace, h])
          | leave result => exact hgoesOn 0 _ rfl

end Engine

/-- The call that begins with an invocation. -/
def Invocation.begun (w : World) : Invocation → CallStatus
  | failed cause w => .failed cause [] w
  | returned result w => .over ⟨.ok result, w⟩
  | entered a => .running ⟨w, 0, a, []⟩

/-- What a call has come to, as the host sees it. -/
def Ending.completion (ending : Ending (Option Value)) : Completion := ⟨ending.result, ending.world⟩

namespace Engine

variable {e : Engine} {w : World} {owner name descriptor : String} {args : List Value} {fuel : Nat}
  {ending : Ending (Option Value)} {trail : List CallState} {c : Completion}

/-- A call fails at once, in the engine as in the machine, or it begins with an invocation. -/
theorem call_cases (hidle : e.callDepth = 0) (w : World) (owner name descriptor : String)
    (args : List Value) :
    (∃ cause, (∀ fuel, e.call fuel w owner name descriptor args = e.fail w cause) ∧
      e.machine.start w owner name descriptor args = .failed cause [] w) ∨
    ∃ kind method,
      (∀ fuel, e.call fuel w owner name descriptor args =
        invoke (execute fuel) { e with executed := 0 } w kind method args) ∧
      e.machine.start w owner name descriptor args =
        (e.machine.invoke 0 w kind method args).begun w := by
  unfold call Machine.start
  cases MethodType.parse descriptor with
  | error cause => exact .inl ⟨_, fun _ => rfl, rfl⟩
  | ok type =>
      dsimp only
      cases e.machine.method? ⟨owner, name, type⟩ with
      | none => exact .inl ⟨_, fun _ => rfl, rfl⟩
      | some d =>
          dsimp only
          generalize (if d.isStatic then InvokeKind.static else .virtual) = kind
          cases Machine.checkArguments w ⟨owner, name, type⟩ kind args with
          | error cause => exact .inl ⟨_, fun _ => rfl, rfl⟩
          | ok =>
              simp only [hidle, if_true]
              refine .inr ⟨kind, ⟨owner, name, type⟩, fun _ => rfl, ?_⟩
              cases e.machine.invoke 0 w kind ⟨owner, name, type⟩ args <;> rfl

/-- What a call comes to is what the machine comes to.  Afterwards no method is active, and the
machine is as it was. -/
theorem completes_of_call (hidle : e.callDepth = 0)
    (h : e.call fuel w owner name descriptor args = some ending) :
    (ending.engine.callDepth = 0 ∧ ending.engine.machine = e.machine) ∧
      ∃ trail, e.machine.Completes (e.machine.start w owner name descriptor args) trail
        ending.completion := by
  rcases call_cases hidle w owner name descriptor args with
    ⟨cause, hcall, hstart⟩ | ⟨kind, method, hcall, hstart⟩
  · rw [hcall] at h
    cases h
    exact ⟨⟨hidle, rfl⟩, [], hstart ▸ .over _⟩
  · rw [hcall, invoke] at h
    simp only [hidle] at h
    rw [hstart]
    cases hinvoke : e.machine.invoke 0 w kind method args with
    | failed cause w =>
        rw [hinvoke] at h
        cases h
        exact ⟨⟨rfl, rfl⟩, [], .over _⟩
    | returned result w =>
        rw [hinvoke] at h
        cases h
        exact ⟨⟨rfl, rfl⟩, [], .over _⟩
    | entered a =>
        rw [hinvoke] at h
        obtain ⟨inner, hinner, rfl⟩ := Option.map_eq_some_iff.1 h
        obtain ⟨t, hgets, hcallers, hworld, htallies⟩ := sound_execute fuel
          (s := ⟨w, 0, a, []⟩) ⟨rfl, rfl, fun _ => rfl⟩ hinner
        refine ⟨⟨by simp [htallies.callDepth, hcallers], htallies.machine⟩, ?_⟩
        obtain ⟨result, e', w'⟩ := inner
        obtain rfl : t.world = w' := hworld
        rw [CallState.ended_of_outermost hcallers] at hgets
        exact hgets.completes (.over _)

theorem exists_call (hidle : e.callDepth = 0)
    (h : e.machine.Completes (e.machine.start w owner name descriptor args) trail c) :
    ∃ n ending, e.call n w owner name descriptor args = some ending := by
  rcases call_cases hidle w owner name descriptor args with
    ⟨cause, hcall, hstart⟩ | ⟨kind, method, hcall, hstart⟩
  · exact ⟨0, _, hcall 0⟩
  · simp only [hcall, invoke, hidle]
    rw [hstart] at h
    cases hinvoke : e.machine.invoke 0 w kind method args with
    | failed cause w => exact ⟨0, _, rfl⟩
    | returned result w => exact ⟨0, _, rfl⟩
    | entered a =>
        rw [hinvoke] at h
        obtain ⟨n, ending, hexecute⟩ := exists_execute
          (e := ⟨e.machine, 0 + 1, 0⟩) (s := ⟨w, 0, a, []⟩) ⟨rfl, rfl, fun _ => rfl⟩ h
        exact ⟨n, _, by simp only [hexecute]; rfl⟩

theorem call_of_le (hidle : e.callDepth = 0) {n k : Nat} (hnk : n ≤ k)
    (h : e.call n w owner name descriptor args = some ending) :
    e.call k w owner name descriptor args = some ending := by
  rcases call_cases hidle w owner name descriptor args with
    ⟨cause, hcall, -⟩ | ⟨kind, method, hcall, -⟩
  · rw [hcall] at h ⊢
    exact h
  · rw [hcall] at h ⊢
    exact (covers_of_le hnk).invoke h

/-- True if a call comes to this, given enough fuel. -/
def Answers (e : Engine) (w : World) (owner name descriptor : String) (args : List Value)
    (c : Completion) : Prop :=
  ∃ n, ∀ fuel, n ≤ fuel → ∃ ending, e.call fuel w owner name descriptor args = some ending ∧
    ending.completion = c

/-- The engine answers as the machine does. -/
theorem answers_iff (hidle : e.callDepth = 0) :
    e.Answers w owner name descriptor args c ↔
      ∃ trail, e.machine.Completes (e.machine.start w owner name descriptor args) trail c := by
  constructor
  · rintro ⟨n, h⟩
    obtain ⟨ending, hcall, rfl⟩ := h n (Nat.le_refl n)
    exact (completes_of_call hidle hcall).2
  · rintro ⟨trail, h⟩
    obtain ⟨n, ending, hcall⟩ := exists_call hidle h
    obtain ⟨-, trail', h'⟩ := completes_of_call hidle hcall
    exact ⟨n, fun fuel hfuel => ⟨ending, call_of_le hidle hfuel hcall, (h.unique h').2⟩⟩

/-- The engines that come about by loading units, registering natives and calling methods, with any
objects around, to whatever end. -/
inductive Attained : Engine → Prop
  | new (limits : Limits) : Attained (.new limits)
  | load {e e' : Engine} {u : CompiledUnit} : Attained e → e.load u = .ok e' → Attained e'
  | loadBytes {e e' : Engine} {bytes : Bytes} {name : String} :
      Attained e → e.loadBytes bytes = .ok (name, e') → Attained e'
  | register {e : Engine} (method : MethodRef) (native : Native) :
      Attained e → Attained (e.register method native)
  | call {e : Engine} {fuel : Nat} {w : World} {owner name descriptor : String} {args : List Value}
      {ending : Ending (Option Value)} :
      Attained e → e.call fuel w owner name descriptor args = some ending → Attained ending.engine

/-- No method is active between calls, and all units have been verified. -/
theorem Attained.idle (h : e.Attained) : e.callDepth = 0 ∧ e.machine.Assembled := by
  induction h with
  | new limits => exact ⟨rfl, .new limits⟩
  | load _ hload ih =>
      obtain ⟨m, hm, h⟩ := Except.bind_eq_ok.1 hload
      cases h
      exact ⟨ih.1, .load ih.2 hm⟩
  | loadBytes _ hload ih =>
      obtain ⟨⟨name, m⟩, hm, h⟩ := Except.bind_eq_ok.1 hload
      cases h
      exact ⟨ih.1, .loadBytes ih.2 hm⟩
  | register method native _ ih => exact ⟨ih.1, .register method native ih.2⟩
  | call _ hcall ih =>
      obtain ⟨⟨hidle, hsame⟩, -⟩ := completes_of_call ih.1 hcall
      exact ⟨hidle, hsame ▸ ih.2⟩

end Engine

namespace Method

/-- Throws a text. -/
def thrower : Method where
  name := "thrower"
  type := ⟨[], none⟩
  access := .static
  maxStack := 1
  maxLocals := 0
  body := .ofList [.const (.string "oops"), .throw]
  stackMap := []

/-- Invokes the thrower. -/
def relay : Method where
  name := "relay"
  type := ⟨[], none⟩
  access := .static
  maxStack := 0
  maxLocals := 0
  body := .ofList [.nop, .invoke .static ⟨"Demo", "thrower", ⟨[], none⟩⟩, .leave none]
  stackMap := []

theorem analyze_thrower : thrower.analyze "Demo" =
    .ok [some ⟨[], []⟩, some ⟨[], [.reference (.object stringTypeName)]⟩] := by
  have hlabels : thrower.body.labelPositions = .ok [] := rfl
  have hentry : thrower.entryFrame "Demo" = .ok ⟨[], []⟩ := rfl
  have hlength : ¬ thrower.body.length = 0 := by decide
  simp only [analyze, hlabels, hentry, hlength, if_false]
  rw [Progress.run_of_follow rfl rfl, Progress.run_of_follow rfl rfl, Progress.run]
  rfl

theorem analyze_relay : relay.analyze "Demo" =
    .ok [some ⟨[], []⟩, some ⟨[], []⟩, some ⟨[], []⟩] := by
  have hlabels : relay.body.labelPositions = .ok [] := rfl
  have hentry : relay.entryFrame "Demo" = .ok ⟨[], []⟩ := rfl
  have hlength : ¬ relay.body.length = 0 := by decide
  simp only [analyze, hlabels, hentry, hlength, if_false]
  rw [Progress.run_of_follow rfl rfl, Progress.run_of_follow rfl rfl,
    Progress.run_of_follow rfl rfl, Progress.run]
  rfl

end Method

theorem MethodType.parse_plain : parse "()V" = .ok ⟨[], none⟩ := by
  simp [parse, parseParams, parseReturns]
  rfl

/-- The unit of the thrower and the relay. -/
def CompiledUnit.throwing : CompiledUnit := ⟨"Demo", .none, [Method.thrower, Method.relay]⟩

theorem CompiledUnit.verifyForLoading_throwing : throwing.verifyForLoading = .ok () := by
  have hthrower : Method.thrower.verifyForLoading "Demo" = .ok () := by
    simp only [Method.verifyForLoading, Method.verify, Method.analyze_thrower]
    rfl
  have hrelay : Method.relay.verifyForLoading "Demo" = .ok () := by
    simp only [Method.verifyForLoading, Method.verify, Method.analyze_relay]
    rfl
  refine Except.forM_eq_ok.2 fun m hm => ?_
  obtain rfl | rfl : m = Method.thrower ∨ m = Method.relay := by simpa [throwing] using hm
  · simp only [throwing, hthrower]
  · simp only [throwing, hrelay]

namespace Engine

/-- An engine with the thrower and the relay. -/
def throwing (limits : Limits) : Engine := ⟨⟨limits, [.throwing], Library.natives⟩, 0, 0⟩

theorem attained_throwing (limits : Limits) : (throwing limits).Attained := by
  refine .load (.new limits) (u := .throwing) ?_
  simp only [load, Machine.load, CompiledUnit.verifyForLoading_throwing]
  rfl

end Engine

end Resumable
