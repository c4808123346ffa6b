import Resumable.Proofs.Calls

/-!
# Calls on machines that count instructions

An instruction limit only ends calls.  As long as there's room below the limit, a machine makes the
same steps as it would without one, and each step counts once.
-/

namespace Resumable

namespace Machine

/-- The machine without its instruction limit. -/
def unlimited (m : Machine) : Machine := { m with limits := { m.limits with instructions := none } }

/-- True if the instruction limit leaves room for so many steps. -/
def Allows (m : Machine) (steps : Nat) : Prop :=
  ∀ limit, m.limits.instructions = some limit → steps ≤ limit

/-- True if a call ends so by steps from the states of the trail, unless it runs into the
instruction limit before. -/
def Concludes (m : Machine) (status : CallStatus) (trail : List CallState) (c : Completion) : Prop :=
  m.unlimited.Completes status trail c ∧ (m.Allows trail.length → m.Completes status trail c)

/-- True if a run gets from one state to the other by steps from the states of the trail, unless it
runs into the instruction limit before. -/
def Proceeds (m : Machine) (s : CallState) (trail : List CallState) (t : CallState) : Prop :=
  m.unlimited.Advances s trail t ∧ (m.Allows trail.length → m.Advances s trail t)

variable {m : Machine} {s t : CallState} {trail : List CallState} {c : Completion}

theorem Allows.mono {n k : Nat} (h : m.Allows k) (hnk : n ≤ k) : m.Allows n :=
  fun limit hlimit => Nat.le_trans hnk (h limit hlimit)

/-- Below the limit a step doesn't depend on it. -/
theorem step_unlimited (h : m.Allows (s.executed + 1)) : m.unlimited.step s = m.step s := by
  simp only [step]
  cases s.current.method.body.get? s.current.position with
  | none => rfl
  | some i =>
      dsimp only
      cases hlimit : m.limits.instructions with
      | none => rfl
      | some limit =>
          have hroom : ¬ limit ≤ s.executed := by
            have := h limit hlimit
            omega
          simp only [hroom, if_false]
          rfl

/-- What follows an instruction doesn't count. -/
theorem executed_of_follow {flow : Flow} (h : m.follow s flow = .running t) :
    t.executed = s.executed := by
  cases flow with
  | proceed =>
      cases h
      rfl
  | jump target =>
      simp only [follow] at h
      split at h
      · cases h
        rfl
      · cases h
  | leave result =>
      simp only [follow, CallState.leave] at h
      split at h
      · cases h
      · cases h
        rfl
  | call kind method args =>
      simp only [follow] at h
      split at h
      · cases h
      · cases h
        rfl
      · cases h
        rfl

/-- Each step counts as one instruction. -/
theorem executed_of_step (h : m.step s = .running t) : t.executed = s.executed + 1 := by
  obtain ⟨i, -, hexecute⟩ := execute_of_step h
  unfold step.execute at hexecute
  split at hexecute
  · cases hexecute
  · exact executed_of_follow hexecute

/-- A run that leaves room below the limit is a run of the machine with the limit. -/
theorem Advances.limited (h : m.unlimited.Advances s trail t)
    (room : m.Allows (s.executed + trail.length)) : m.Advances s trail t := by
  induction h with
  | refl s => exact .refl s
  | @step s t u trail next _ ih =>
      have hnext : m.step s = .running t := by
        rw [← next]
        exact (step_unlimited (room.mono (by simp))).symm
      refine .step hnext (ih (room.mono ?_))
      rw [executed_of_step hnext, List.length_cons]
      omega

/-- A call that ends with room below the limit ends so on the machine with the limit. -/
theorem Completes.limited (h : m.unlimited.Completes (.running s) trail c)
    (room : m.Allows (s.executed + trail.length)) : m.Completes (.running s) trail c := by
  generalize hstatus : CallStatus.running s = status at h
  induction h generalizing s with
  | «over» c => cases hstatus
  | @step s₁ trail c rest ih =>
      obtain rfl : s = s₁ := CallStatus.running.inj hstatus
      have hnext : m.unlimited.step s = m.step s :=
        step_unlimited (room.mono (by simp))
      rw [hnext] at rest ih
      refine .step ?_
      cases hstep : m.step s with
      | «over» c' =>
          rw [hstep] at rest
          cases rest
          exact .over c
      | running t =>
          rw [← hstep]
          refine ih (room.mono ?_) hstep.symm
          rw [executed_of_step hstep, List.length_cons]
          omega

/-- A call that ends with room below the limit ends so on the machine without the limit. -/
theorem Completes.unlimited (h : m.Completes (.running s) trail c)
    (room : m.Allows (s.executed + trail.length)) : m.unlimited.Completes (.running s) trail c := by
  generalize hstatus : CallStatus.running s = status at h
  induction h generalizing s with
  | «over» c => cases hstatus
  | @step s₁ trail c rest ih =>
      obtain rfl : s = s₁ := CallStatus.running.inj hstatus
      have hnext : m.unlimited.step s = m.step s := step_unlimited (room.mono (by simp))
      refine .step ?_
      rw [hnext]
      cases hstep : m.step s with
      | «over» c' =>
          rw [hstep] at rest
          cases rest
          exact .over c
      | running t =>
          rw [← hstep]
          refine ih (room.mono ?_) hstep.symm
          rw [executed_of_step hstep, List.length_cons]
          omega

/-- A call that ends well hasn't run into the limit. -/
theorem Completes.allows {result : Option Value} (h : m.Completes (.running s) trail c)
    (hc : c.result = .ok result) : m.Allows (s.executed + trail.length) := by
  generalize hstatus : CallStatus.running s = status at h
  induction h generalizing s with
  | «over» c => cases hstatus
  | @step s₁ trail c rest ih =>
      obtain rfl : s = s₁ := CallStatus.running.inj hstatus
      cases hstep : m.step s with
      | «over» c' =>
          rw [hstep] at rest
          cases rest
          intro limit hlimit
          rw [List.length_singleton]
          simp only [Machine.step, hlimit] at hstep
          split at hstep
          · cases hstep
            cases hc
          · split at hstep
            · cases hstep
              cases hc
            · omega
      | running t =>
          have := ih hc (s := t) hstep.symm
          rw [executed_of_step hstep] at this
          rw [List.length_cons]
          exact this.mono (by omega)

theorem Advances.proceeds (h : m.unlimited.Advances s trail t) (hs : s.executed = 0) :
    m.Proceeds s trail t :=
  ⟨h, fun room => h.limited (by simpa [hs] using room)⟩

theorem Completes.concludes (h : m.unlimited.Completes (.running s) trail c)
    (hs : s.executed = 0) : m.Concludes (.running s) trail c :=
  ⟨h, fun room => h.limited (by simpa [hs] using room)⟩

end Machine

end Resumable
