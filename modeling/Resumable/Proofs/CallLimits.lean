import Resumable.Proofs.Engines
import Resumable.Proofs.Limits
import Resumable.Proofs.Starts

/-!
# What limits do to calls

A limit cuts a call short and changes nothing before that.  An instruction limit lets the call
execute as many instructions as it says.  A depth limit lets it enter methods until as many are
active; nothing but entering a method depends on it.
-/

namespace Resumable

namespace CallState

/-- True if there's an instruction that's executed next. -/
def executes (s : CallState) : Bool := (s.current.method.body.get? s.current.position).isSome

end CallState

namespace Machine

/-- How many instructions are executed in the states of a trail. -/
def executedIn (trail : List CallState) : Nat := trail.countP CallState.executes

/-- True if a call gets from the way it begins to the state, by steps from the states of the
trail. -/
def GetsTo (m : Machine) (status : CallStatus) (trail : List CallState) (t : CallState) : Prop :=
  ∃ s, status = .running s ∧ m.Advances s trail t

/-- The machine with another limit on how many methods may be active. -/
def withDepth (m : Machine) (depth : Nat) : Machine :=
  { m with limits := { m.limits with callDepth := depth } }

variable {m : Machine} {s t : CallState} {trail : List CallState} {c : Completion} {d d' n : Nat}

/-! ## Instruction limits -/

/-- A body that has come to its end without leaving the method fails, whatever the limits are. -/
theorem step_of_not_executes (h : ¬s.executes) :
    m.step s = .failed (.misuse .fellOffEnd) s.callers s.world := by
  have hnone : s.current.method.body.get? s.current.position = none := by
    simpa [CallState.executes] using h
  simp only [step, hnone]

theorem executedIn_cons (h : s.executes) : executedIn (s :: trail) = executedIn trail + 1 :=
  List.countP_cons_of_pos h

theorem executedIn_last (h : ¬s.executes) : executedIn [s] = 0 := List.countP_cons_of_neg h

theorem completes_within (h : m.unlimited.Completes (.running s) trail c)
    (room : m.Allows (s.executed + executedIn trail)) : m.Completes (.running s) trail c := by
  generalize hstatus : CallStatus.running s = status at h
  induction h generalizing s with
  | «over» c => cases hstatus
  | @step s₁ trail c rest ih =>
      obtain rfl : s = s₁ := CallStatus.running.inj hstatus
      by_cases hnext : s.executes
      · rw [executedIn_cons hnext] at room
        rw [step_unlimited (room.mono (by omega))] at rest ih
        refine .step ?_
        cases hstep : m.step s with
        | «over» c' =>
            rw [hstep] at rest
            cases rest
            exact .over c
        | running t =>
            rw [← hstep]
            refine ih (s := t) (room.mono ?_) hstep.symm
            rw [executed_of_step hstep]
            omega
      · rw [step_of_not_executes hnext] at rest
        cases rest
        exact .last (step_of_not_executes hnext)

theorem Advances.executed (h : m.Advances s trail t) : t.executed = s.executed + trail.length := by
  induction h with
  | refl => rfl
  | step next _ ih =>
      rw [ih, executed_of_step next, List.length_cons]
      omega

/-- A call ends within so many instructions, or gets to execute one more than that. -/
theorem ends_or_advances (m : Machine) (n : Nat) (s : CallState) :
    (∃ trail c, m.Completes (.running s) trail c ∧ executedIn trail ≤ n) ∨
      ∃ trail t, m.Advances s trail t ∧ trail.length = n ∧ executedIn trail = n ∧ t.executes := by
  induction n generalizing s with
  | zero =>
      by_cases hnext : s.executes
      · exact .inr ⟨[], s, .refl s, rfl, rfl, hnext⟩
      · exact .inl ⟨[s], _, .last (step_of_not_executes hnext),
          Nat.le_of_eq (executedIn_last hnext)⟩
  | succ n ih =>
      by_cases hnext : s.executes
      · cases hstep : m.step s with
        | «over» c =>
            refine .inl ⟨[s], c, .last hstep, ?_⟩
            rw [executedIn_cons hnext]
            exact Nat.succ_le_succ (Nat.zero_le n)
        | running t =>
            rcases ih t with ⟨trail, c, hc, hn⟩ | ⟨trail, u, hu, hlength, hn, hu'⟩
            · refine .inl ⟨s :: trail, c, .step (hstep ▸ hc), ?_⟩
              rw [executedIn_cons hnext]
              exact Nat.succ_le_succ hn
            · refine .inr ⟨s :: trail, u, .step hstep hu, ?_, ?_, hu'⟩
              · rw [List.length_cons, hlength]
              · rw [executedIn_cons hnext, hn]
      · refine .inl ⟨[s], _, .last (step_of_not_executes hnext), ?_⟩
        rw [executedIn_last hnext]
        exact Nat.zero_le _

/-- An instruction for which there's no room fails. -/
theorem step_of_full {limit : Nat} (hlimit : m.limits.instructions = some limit)
    (hexecuted : limit ≤ s.executed) (h : s.executes) :
    m.step s = .failed (.instructionLimit limit) s.active s.world := by
  obtain ⟨i, hi⟩ := Option.isSome_iff_exists.1 h
  simp only [step, hi, hlimit, if_pos hexecuted]
  rfl

section

variable {status : CallStatus} {limit : Nat}

/-- What begins afresh and needs no more instructions than allowed ends as it does without a
limit. -/
theorem completes_of_room (fresh : ∀ s, status = .running s → s.executed = 0)
    (hlimit : m.limits.instructions = some limit)
    (h : m.unlimited.Completes status trail c) (room : executedIn trail ≤ limit) :
    m.Completes status trail c := by
  cases status with
  | «over» c' =>
      cases h
      exact .over c
  | running s =>
      refine completes_within h fun limit' hlimit' => ?_
      obtain rfl := Option.some.inj (hlimit.symm.trans hlimit')
      rw [fresh s rfl]
      omega

/-- What begins afresh and needs more instructions than allowed, or doesn't end, fails after as many
as are allowed. -/
theorem exists_full (fresh : ∀ s, status = .running s → s.executed = 0)
    (hlimit : m.limits.instructions = some limit)
    (h : ∀ trail c, m.unlimited.Completes status trail c → limit < executedIn trail) :
    ∃ before t, m.unlimited.GetsTo status before t ∧ executedIn before = limit ∧
      m.Completes status (before ++ [t])
        ⟨.error ⟨.instructionLimit limit, t.active.map Activation.tracePoint⟩, t.world⟩ := by
  cases status with
  | «over» c => exact absurd (h [] c (.over c)) (Nat.not_lt_zero limit)
  | running s =>
      have hzero := fresh s rfl
      rcases ends_or_advances m.unlimited limit s with
        ⟨trail, c, hc, hn⟩ | ⟨before, t, hadvances, hlength, hn, hnext⟩
      · exact absurd (h trail c hc) (Nat.not_lt.2 hn)
      · have hlimited : m.Advances s before t := by
          refine hadvances.limited fun limit' hlimit' => ?_
          obtain rfl := Option.some.inj (hlimit.symm.trans hlimit')
          omega
        have hfull : limit ≤ t.executed := by
          rw [hlimited.executed]
          omega
        exact ⟨before, t, ⟨s, rfl, hadvances⟩, hn,
          hlimited.completes (.last (step_of_full hlimit hfull hnext))⟩

end

/-! ## Depth limits -/

@[simp] theorem native?_withDepth (method : MethodRef) :
    (m.withDepth d).native? method = m.native? method := rfl

@[simp] theorem method?_withDepth (method : MethodRef) :
    (m.withDepth d).method? method = m.method? method := rfl

@[simp] theorem callDepth_withDepth : (m.withDepth d).limits.callDepth = d := rfl

@[simp] theorem instructions_withDepth :
    (m.withDepth d).limits.instructions = m.limits.instructions := rfl

/-- How what a call gets to depends on the depth limit, where so many methods are active before.
It doesn't; or a method is entered, if the limit isn't reached yet. -/
inductive Deepens (n : Nat) (f : Nat → CallStatus) : Prop
  | same (status : CallStatus) (eq : ∀ d, f d = status)
      (active : ∀ t, status = .running t → t.active.length ≤ n)
  | enter (t : CallState) (active : t.active.length = n + 1)
      (eq : ∀ d, f d =
        if d ≤ n then .failed (.callDepthLimit d) t.callers t.world else .running t)

variable {f : Nat → CallStatus} {D : Nat}

theorem deepens_over (h : ∀ d, f d = .over c) : Deepens n f := by
  refine .same (.over c) h fun t ht => ?_
  cases ht

theorem invoke_withDepth (m : Machine) (active : Nat) (w : World) (kind : InvokeKind)
    (method : MethodRef) (args : List Value) :
    (∃ outcome, (∀ d, (m.withDepth d).invoke active w kind method args = outcome) ∧
        ∀ a, outcome ≠ .entered a) ∨
      ∃ a, ∀ d, (m.withDepth d).invoke active w kind method args =
        if d ≤ active then .failed (.callDepthLimit d) w else .entered a := by
  simp only [invoke, native?_withDepth, method?_withDepth, callDepth_withDepth]
  split
  · exact .inl ⟨_, fun _ => rfl, by simp⟩
  · cases m.native? method with
    | some native =>
        refine .inl ⟨_, fun _ => rfl, fun a => ?_⟩
        rcases native w args with ⟨_ | _, _⟩ <;> simp
    | none =>
        cases m.method? method with
        | none => exact .inl ⟨_, fun _ => rfl, by simp⟩
        | some declared =>
            dsimp only
            split
            · exact .inl ⟨_, fun _ => rfl, by simp⟩
            · split
              · exact .inl ⟨_, fun _ => rfl, by simp⟩
              · exact .inr ⟨_, fun _ => rfl⟩

theorem deepens_execute (m : Machine) (s : CallState) (i : Instruction) :
    Deepens s.active.length fun d => step.execute (m.withDepth d) s i := by
  simp only [step.execute]
  cases s.current.frame.execute s.world i with
  | error cause => exact deepens_over fun _ => rfl
  | ok outcome =>
      obtain ⟨flow, f, w⟩ := outcome
      cases flow with
      | proceed =>
          refine .same _ (fun _ => rfl) fun t ht => ?_
          cases ht
          exact Nat.le_refl _
      | jump target =>
          simp only [follow]
          cases s.current.method.body.position? target with
          | none => exact deepens_over fun _ => rfl
          | some position =>
              refine .same _ (fun _ => rfl) fun t ht => ?_
              cases ht
              exact Nat.le_refl _
      | leave result =>
          refine .same _ (fun _ => rfl) fun t ht => ?_
          dsimp only [follow, CallState.leave] at ht
          split at ht
          · cases ht
          · rename_i caller callers hcallers
            cases ht
            simp [CallState.active, hcallers]
      | call kind method args =>
          simp only [follow]
          rcases invoke_withDepth m (s.callers.length + 1) w kind method args with
            ⟨outcome, heq, hout⟩ | ⟨a, heq⟩
          · simp only [heq]
            refine .same _ (fun _ => rfl) fun t ht => ?_
            cases outcome with
            | failed cause w => cases ht
            | returned result w =>
                cases ht
                exact Nat.le_refl _
            | entered a => exact absurd rfl (hout a)
          · refine .enter ⟨w, s.executed + 1, a, { s.current with frame := f } :: s.callers⟩ rfl
              fun d => ?_
            by_cases hd : d ≤ s.callers.length + 1
            · simp only [heq, if_pos hd]
              exact (if_pos hd).symm
            · simp only [heq, if_neg hd]
              exact (if_neg hd).symm

theorem deepens_step (m : Machine) (s : CallState) :
    Deepens s.active.length fun d => (m.withDepth d).step s := by
  simp only [step, instructions_withDepth]
  cases s.current.method.body.get? s.current.position with
  | none => exact deepens_over fun _ => rfl
  | some i =>
      have hexecute := deepens_execute m s i
      dsimp only
      cases m.limits.instructions with
      | none => exact hexecute
      | some limit =>
          dsimp only
          split
          · exact deepens_over fun _ => rfl
          · exact hexecute

theorem deepens_start (m : Machine) (w : World) (owner name descriptor : String)
    (args : List Value) :
    Deepens 0 fun d => (m.withDepth d).start w owner name descriptor args := by
  simp only [start, method?_withDepth]
  cases MethodType.parse descriptor with
  | error cause => exact deepens_over fun _ => rfl
  | ok type =>
      dsimp only
      cases m.method? ⟨owner, name, type⟩ with
      | none => exact deepens_over fun _ => rfl
      | some declared =>
          dsimp only
          generalize (if declared.isStatic then InvokeKind.static else .virtual) = kind
          cases checkArguments w ⟨owner, name, type⟩ kind args with
          | error cause => exact deepens_over fun _ => rfl
          | ok =>
              rcases invoke_withDepth m 0 w kind ⟨owner, name, type⟩ args with
                ⟨outcome, heq, hout⟩ | ⟨a, heq⟩
              · simp only [heq]
                refine .same _ (fun _ => rfl) ?_
                cases outcome with
                | failed cause w =>
                    intro t ht
                    cases ht
                | returned result w =>
                    intro t ht
                    cases ht
                | entered a => exact absurd rfl (hout a)
              · refine .enter ⟨w, 0, a, []⟩ rfl fun d => ?_
                by_cases hd : d ≤ 0
                · simp only [heq, if_pos hd]
                · simp only [heq, if_neg hd]

namespace Deepens

/-- What runs with one limit runs with a higher one. -/
theorem mono (h : Deepens n f) (hd : f d = .running t) (hle : d ≤ d') : f d' = .running t := by
  cases h with
  | same status eq active => rw [eq, ← eq d, hd]
  | enter u active eq =>
      rw [eq] at hd ⊢
      by_cases hn : d ≤ n
      · rw [if_pos hn] at hd
        cases hd
      · rw [if_neg hn] at hd
        rw [if_neg (by omega), hd]

/-- What runs without too many active methods runs with any limit that allows so many. -/
theorem running (h : Deepens n f) (hd : f d = .running t) (ht : t.active.length ≤ D)
    (hle : D ≤ d') : f d' = .running t := by
  cases h with
  | same status eq active => rw [eq, ← eq d, hd]
  | enter u active eq =>
      rw [eq] at hd ⊢
      by_cases hn : d ≤ n
      · rw [if_pos hn] at hd
        cases hd
      · rw [if_neg hn] at hd
        cases hd
        rw [if_neg (by omega)]

/-- If there are never too many active methods, all limits that allow so many lead to the same. -/
theorem eq_of_shallow (h : Deepens n f) (shallow : ∀ d t, f d = .running t → t.active.length ≤ D)
    (hd : D ≤ d) (hd' : D ≤ d') : f d = f d' := by
  cases h with
  | same status eq active => rw [eq, eq]
  | enter u active eq =>
      have hu := shallow (n + 1) u ((eq _).trans (if_neg (by omega)))
      rw [eq, eq, if_neg (by omega), if_neg (by omega)]

/-- A method that makes too many active is entered by exactly those limits that allow it, and fails
the call with the others. -/
theorem first (h : Deepens n f) (hn : n ≤ D) (hd : f d = .running t) (ht : D < t.active.length) :
    t.active.length = D + 1 ∧ (∀ d', D < d' → f d' = .running t) ∧
      f D = .failed (.callDepthLimit D) t.callers t.world := by
  cases h with
  | same status eq active =>
      have := active t ((eq d).symm.trans hd)
      omega
  | enter u active eq =>
      rw [eq] at hd
      by_cases hlow : d ≤ n
      · rw [if_pos hlow] at hd
        cases hd
      · rw [if_neg hlow] at hd
        cases hd
        obtain rfl : n = D := by omega
        refine ⟨active, fun d' hd' => ?_, ?_⟩
        · rw [eq, if_neg (by omega)]
        · rw [eq, if_pos (Nat.le_refl _)]

end Deepens

theorem Advances.deeper (h : (m.withDepth d).Advances s trail t) (hle : d ≤ d') :
    (m.withDepth d').Advances s trail t := by
  induction h with
  | refl s => exact .refl s
  | step next _ ih => exact .step ((deepens_step m _).mono next hle) ih

/-- A call that never has too many active methods ends alike with all limits that allow so many. -/
theorem completes_of_shallow (h : Deepens n f)
    (shallow : ∀ d trail t, (m.withDepth d).GetsTo (f d) trail t → t.active.length ≤ D)
    (hd : D ≤ d) (hd' : D ≤ d') (hc : (m.withDepth d).Completes (f d) trail c) :
    (m.withDepth d').Completes (f d') trail c := by
  have hsame : f d = f d' := h.eq_of_shallow (fun d t ht => shallow d [] t ⟨t, ht, .refl t⟩) hd hd'
  induction trail generalizing n f with
  | nil =>
      rw [← hsame]
      generalize f d = status at hc ⊢
      cases hc with
      | «over» c => exact .over c
  | cons s trail ih =>
      generalize hstatus : f d = status at hc
      cases hc with
      | step rest =>
          rw [← hsame, hstatus]
          have hshallow : ∀ k trail t, (m.withDepth k).GetsTo ((m.withDepth k).step s) trail t →
              t.active.length ≤ D := by
            rintro k trail t ⟨u, hu, ht⟩
            refine shallow (max k d) (s :: trail) t
              ⟨s, h.mono hstatus (Nat.le_max_right ..), .step ?_ (ht.deeper (Nat.le_max_left ..))⟩
            exact (deepens_step m s).mono hu (Nat.le_max_left ..)
          refine .step (ih (deepens_step m s) hshallow rest ?_)
          exact (deepens_step m s).eq_of_shallow
            (fun k t ht => hshallow k [] t ⟨t, ht, .refl t⟩) hd hd'

/-- A call that gets to have too many active methods fails with the limit, where it would enter the
first one of these. -/
theorem exists_first_deep (h : Deepens n f) (hn : n ≤ D)
    (hget : (m.withDepth d).GetsTo (f d) trail t) (ht : D < t.active.length) :
    ∃ before u, (∀ d', D < d' → (m.withDepth d').GetsTo (f d') before u) ∧
      (∀ s ∈ before, s.active.length ≤ D) ∧ u.active.length = D + 1 ∧
      (m.withDepth D).Completes (f D) before
        ⟨.error ⟨.callDepthLimit D, u.callers.map Activation.tracePoint⟩, u.world⟩ := by
  obtain ⟨s, hs, hadvances⟩ := hget
  induction hadvances generalizing n f with
  | refl s =>
      obtain ⟨hactive, hruns, hfails⟩ := h.first hn hs ht
      refine ⟨[], s, fun d' hd' => ⟨s, hruns d' hd', .refl s⟩, by simp, hactive, ?_⟩
      rw [hfails]
      exact .over _
  | @step s u v trail next rest ih =>
      by_cases hdeep : D < s.active.length
      · obtain ⟨hactive, hruns, hfails⟩ := h.first hn hs hdeep
        refine ⟨[], s, fun d' hd' => ⟨s, hruns d' hd', .refl s⟩, by simp, hactive, ?_⟩
        rw [hfails]
        exact .over _
      · have hshallow : s.active.length ≤ D := Nat.le_of_not_lt hdeep
        obtain ⟨before, u', hget, hbefore, hactive, hcompletes⟩ :=
          ih (deepens_step m s) hshallow ht next
        refine ⟨s :: before, u', fun d' hd' => ?_, List.forall_mem_cons.2 ⟨hshallow, hbefore⟩,
          hactive, ?_⟩
        · obtain ⟨v', hv', hu'⟩ := hget d' hd'
          exact ⟨s, h.running hs hshallow (Nat.le_of_lt hd'), .step hv' hu'⟩
        · rw [h.running hs hshallow (Nat.le_refl D)]
          exact .step hcompletes

end Machine

namespace Engine

variable {e : Engine} {w : World} {owner name descriptor : String} {args : List Value}

/-- The engine with other limits. -/
def withLimits (e : Engine) (limits : Limits) : Engine :=
  { e with machine := { e.machine with limits } }

/-- What a call does with its limits, and what it leaves to other calls.  How many methods are
active and how many instructions are executed is told of the machine's steps.  The engine's answers
go by these, whatever the limits are. -/
structure KeepsLimits (e : Engine) (w : World) (owner name descriptor : String)
    (args : List Value) : Prop where
  answers : ∀ limits c, (e.withLimits limits).Answers w owner name descriptor args c ↔
    ∃ trail, (e.withLimits limits).machine.Completes
      ((e.withLimits limits).machine.start w owner name descriptor args) trail c
  /-- Between calls no method is active. -/
  idle : e.callDepth = 0
  /-- However a call ends, no method is active afterwards, and units and natives are as before. -/
  leaves : ∀ fuel ending, e.call fuel w owner name descriptor args = some ending →
    ending.engine.callDepth = 0 ∧ ending.engine.machine = e.machine
  /-- A call that needs no more instructions than allowed ends as it does without a limit. -/
  within : ∀ limit trail c, e.machine.limits.instructions = some limit →
    e.machine.unlimited.Completes (e.machine.unlimited.start w owner name descriptor args) trail c →
    Machine.executedIn trail ≤ limit → e.Answers w owner name descriptor args c
  /-- A call that needs more, or doesn't end, fails after as many as are allowed. -/
  exceeding : ∀ limit, e.machine.limits.instructions = some limit →
    (∀ trail c,
      e.machine.unlimited.Completes (e.machine.unlimited.start w owner name descriptor args)
        trail c → limit < Machine.executedIn trail) →
    ∃ trail s,
      e.machine.unlimited.GetsTo (e.machine.unlimited.start w owner name descriptor args)
        trail s ∧
      Machine.executedIn trail = limit ∧
      e.Answers w owner name descriptor args
        ⟨.error ⟨.instructionLimit limit, s.active.map Activation.tracePoint⟩, s.world⟩
  /-- A call that never has more active methods than allowed ends as with any higher limit. -/
  shallow : (∀ depth trail s,
      (e.machine.withDepth depth).GetsTo
        ((e.machine.withDepth depth).start w owner name descriptor args) trail s →
      s.active.length ≤ e.machine.limits.callDepth) →
    ∀ depth, e.machine.limits.callDepth ≤ depth → ∀ c,
      (e.withLimits { e.machine.limits with callDepth := depth }).Answers
        w owner name descriptor args c ↔ e.Answers w owner name descriptor args c
  /-- A call that gets to have more fails at the first invocation that would enter one too many. -/
  deep : ∀ depth trail s,
    (e.machine.withDepth depth).GetsTo
      ((e.machine.withDepth depth).start w owner name descriptor args) trail s →
    e.machine.limits.callDepth < s.active.length →
    ∃ before t,
      (∀ depth, e.machine.limits.callDepth < depth →
        (e.machine.withDepth depth).GetsTo
          ((e.machine.withDepth depth).start w owner name descriptor args) before t) ∧
      (∀ s ∈ before, s.active.length ≤ e.machine.limits.callDepth) ∧
      t.active.length = e.machine.limits.callDepth + 1 ∧
      e.Answers w owner name descriptor args
        ⟨.error ⟨.callDepthLimit e.machine.limits.callDepth,
          t.callers.map Activation.tracePoint⟩, t.world⟩

theorem start_unlimited (m : Machine) :
    m.unlimited.start w owner name descriptor args = m.start w owner name descriptor args := rfl

/-- Limits only cut calls short, and calls don't get into each other's way. -/
theorem Attained.keepsLimits (h : e.Attained) (w : World) (owner name descriptor : String)
    (args : List Value) : e.KeepsLimits w owner name descriptor args := by
  have hidle := h.idle.1
  have hanswers : ∀ limits c, (e.withLimits limits).Answers w owner name descriptor args c ↔
      ∃ trail, (e.withLimits limits).machine.Completes
        ((e.withLimits limits).machine.start w owner name descriptor args) trail c :=
    fun limits c => answers_iff (e := e.withLimits limits) hidle
  have hfresh : ∀ s, e.machine.start w owner name descriptor args = .running s → s.executed = 0 :=
    fun _ => Machine.executed_of_start
  refine ⟨hanswers, hidle, fun fuel ending h => (completes_of_call hidle h).1, ?_, ?_, ?_, ?_⟩
  · intro limit trail c hlimit hc hroom
    exact (answers_iff hidle).2 ⟨trail, Machine.completes_of_room hfresh hlimit hc hroom⟩
  · intro limit hlimit hexceeding
    obtain ⟨before, t, hget, hn, hc⟩ := Machine.exists_full hfresh hlimit hexceeding
    exact ⟨before, t, hget, hn, (answers_iff hidle).2 ⟨_, hc⟩⟩
  · intro hshallow depth hdepth c
    rw [hanswers, answers_iff hidle]
    have hstart := Machine.deepens_start e.machine w owner name descriptor args
    constructor
    · rintro ⟨trail, hc⟩
      exact ⟨trail, Machine.completes_of_shallow hstart hshallow hdepth (Nat.le_refl _) hc⟩
    · rintro ⟨trail, hc⟩
      exact ⟨trail, Machine.completes_of_shallow hstart hshallow (Nat.le_refl _) hdepth hc⟩
  · intro depth trail s hget hdeep
    obtain ⟨before, t, hruns, hbefore, hactive, hc⟩ := Machine.exists_first_deep
      (Machine.deepens_start e.machine w owner name descriptor args) (Nat.zero_le _) hget hdeep
    exact ⟨before, t, hruns, hbefore, hactive, (answers_iff hidle).2 ⟨before, hc⟩⟩

/-- The relay can't enter the thrower if only one method may be active, and four instructions are
enough for both. -/
theorem keepsLimits_throwing :
    (∃ t : CallState, t.active.length = 2 ∧
      (throwing ⟨1, none⟩).Answers .empty "Demo" "relay" "()V" []
        ⟨.error ⟨.callDepthLimit 1, t.callers.map Activation.tracePoint⟩, t.world⟩) ∧
    (throwing ⟨256, some 4⟩).Answers .empty "Demo" "relay" "()V" []
      ⟨.error ⟨.thrown (.object 0), [⟨"Demo.thrower()V", 1⟩, ⟨"Demo.relay()V", 1⟩]⟩,
        ⟨#[.string "oops"], #[], []⟩⟩ := by
  have hstart (limits : Limits) :
      (throwing limits).machine.start .empty "Demo" "relay" "()V" [] =
        ((throwing limits).machine.invoke 0 .empty .static ⟨"Demo", "relay", ⟨[], none⟩⟩ []).begun
          .empty := by
    simp only [Machine.start, MethodType.parse_plain]
    rfl
  constructor
  · have hlimits := (attained_throwing ⟨1, none⟩).keepsLimits .empty "Demo" "relay" "()V" []
    obtain ⟨before, t, -, -, hactive, hanswers⟩ :=
      hlimits.deep 2 _ _ ⟨_, hstart _, .step rfl (.step rfl (.refl _))⟩ (by decide)
    exact ⟨t, hactive, hanswers⟩
  · have hlimits := (attained_throwing ⟨256, some 4⟩).keepsLimits .empty "Demo" "relay" "()V" []
    have hwithin : ∃ trail, (throwing ⟨256, some 4⟩).machine.unlimited.Completes
        ((throwing ⟨256, some 4⟩).machine.unlimited.start .empty "Demo" "relay" "()V" []) trail
          ⟨.error ⟨.thrown (.object 0), [⟨"Demo.thrower()V", 1⟩, ⟨"Demo.relay()V", 1⟩]⟩,
            ⟨#[.string "oops"], #[], []⟩⟩ ∧ Machine.executedIn trail ≤ 4 := by
      rw [start_unlimited, hstart]
      exact ⟨_, .step (.step (.step (.step (.over _)))), by decide⟩
    obtain ⟨trail, hc, hn⟩ := hwithin
    exact hlimits.within 4 trail _ rfl hc hn

end Engine

end Resumable
