import Resumable.Proofs.Loading
import Resumable.Proofs.Passages

/-!
# The call stack

A step leaves the methods that are active as they are, or leaves the innermost one, or enters
another one.  All of them are methods that the machine has loaded, and the outermost one stays the
same.
-/

namespace Resumable

/-- True if both are activations of one method. -/
structure Activation.SameMethod (a b : Activation) : Prop where
  owner : a.owner = b.owner
  method : a.method = b.method

/-- True if the machine finds the activation's method under its name. -/
def Activation.Loaded (m : Machine) (a : Activation) : Prop :=
  m.method? ⟨a.owner, a.method.name, a.method.type⟩ = some a.method

theorem Activation.Loaded.congr {m : Machine} {a b : Activation} (h : a.Loaded m)
    (hab : b.SameMethod a) : b.Loaded m := by
  rw [Loaded, hab.owner, hab.method]
  exact h

theorem Activation.loaded_of_method? {m : Machine} {method : MethodRef} {d : Method}
    (h : m.method? method = some d) (position : Nat) (f : ValueFrame) :
    Activation.Loaded m ⟨method.owner, d, position, f⟩ := by
  obtain ⟨-, -, -, -, hname, htype⟩ := Machine.method?_eq_some h
  rw [Loaded]
  dsimp only
  rw [hname, htype]
  exact h

namespace CallState

/-- The active methods, the innermost one first. -/
def active (s : CallState) : List Activation := s.current :: s.callers

/-- The method that was entered first. -/
def root (s : CallState) : Activation := s.callers.getLastD s.current

/-- True if the machine finds all active methods. -/
def Loaded (m : Machine) (s : CallState) : Prop := ∀ a ∈ s.active, a.Loaded m

/-- True if the call stack of the second state may follow on that of the first one: the running
method goes on or is left, or another one is entered. -/
inductive Restacks (m : Machine) (s t : CallState) : Prop
  | stay (callers : t.callers = s.callers) (current : t.current.SameMethod s.current)
  | leave (b : Activation) (callers : s.callers = b :: t.callers) (current : t.current.SameMethod b)
  | enter (b : Activation) (method : MethodRef) (d : Method) (args : List Value)
      (callers : t.callers = b :: s.callers) (caller : b.SameMethod s.current)
      (found : m.method? method = some d) (hasBody : d.hasBody)
      (current : t.current = ⟨method.owner, d, 0, .entry args d.maxLocals.toNat⟩)

end CallState

namespace Machine

open CallState

variable {m : Machine} {s t : CallState}

theorem restacks_execute {i : Instruction} (h : step.execute m s i = .running t) :
    s.Restacks m t := by
  simp only [step.execute] at h
  split at h
  · cases h
  · rename_i flow f w _
    cases flow with
    | proceed =>
        cases h
        exact .stay rfl ⟨rfl, rfl⟩
    | jump target =>
        simp only [follow] at h
        split at h
        · cases h
          exact .stay rfl ⟨rfl, rfl⟩
        · cases h
    | leave result =>
        simp only [follow, CallState.leave] at h
        split at h
        · cases h
        · rename_i b callers hcallers
          cases h
          exact .leave b hcallers ⟨rfl, rfl⟩
    | call kind method args =>
        simp only [follow] at h
        rcases m.invoke_cases (s.callers.length + 1) w kind method args with
          ⟨e, hinvoke, -⟩ | ⟨⟨outcome, u⟩, -, hinvoke⟩ | ⟨d, hd, hbody, -, -, -, hinvoke⟩
        · rw [hinvoke] at h
          cases h
        · rw [hinvoke] at h
          cases outcome with
          | error cause => cases h
          | ok result =>
              cases h
              exact .stay rfl ⟨rfl, rfl⟩
        · rw [hinvoke] at h
          cases h
          exact .enter _ method d args rfl ⟨rfl, rfl⟩ hd hbody rfl

/-- What a step does to the call stack. -/
theorem restacks_step (h : m.step s = .running t) : s.Restacks m t := by
  obtain ⟨i, -, hexecute⟩ := execute_of_step h
  exact restacks_execute hexecute

/-- A step leads to loaded methods only. -/
theorem loaded_step (hs : s.Loaded m) (h : m.step s = .running t) : t.Loaded m := by
  have hcurrent := hs s.current List.mem_cons_self
  have hcallers := fun a ha => hs a (List.mem_cons_of_mem _ ha)
  intro a ha
  rcases restacks_step h with
    ⟨hsame, hcur⟩ | ⟨b, hsame, hcur⟩ | ⟨b, method, d, args, hsame, hb, hd, -, hcur⟩
  · rcases List.mem_cons.1 ha with rfl | ha
    · exact hcurrent.congr hcur
    · exact hcallers a (hsame ▸ ha)
  · rw [hsame] at hcallers
    rcases List.mem_cons.1 ha with rfl | ha
    · exact (hcallers b List.mem_cons_self).congr hcur
    · exact hcallers a (List.mem_cons_of_mem _ ha)
  · rcases List.mem_cons.1 ha with rfl | ha
    · rw [hcur]
      exact Activation.loaded_of_method? hd _ _
    · rw [hsame] at ha
      rcases List.mem_cons.1 ha with rfl | ha
      · exact hcurrent.congr hb
      · exact hcallers a ha

/-- A step leads to methods with a body only. -/
theorem hasBody_step (hs : ∀ a ∈ s.active, a.method.hasBody) (h : m.step s = .running t) :
    ∀ a ∈ t.active, a.method.hasBody := by
  obtain ⟨hcurrent, hcallers⟩ := List.forall_mem_cons.1 hs
  refine List.forall_mem_cons.2 ?_
  rcases restacks_step h with
    ⟨hsame, hcur⟩ | ⟨b, hsame, hcur⟩ | ⟨b, method, d, args, hsame, hb, -, hbody, hcur⟩
  · rw [hsame, hcur.method]
    exact ⟨hcurrent, hcallers⟩
  · rw [hsame, List.forall_mem_cons] at hcallers
    rw [hcur.method]
    exact hcallers
  · rw [hsame, hcur, List.forall_mem_cons, hb.method]
    exact ⟨hbody, hcurrent, hcallers⟩

theorem sameMethod_getLastD {a b : Activation} (h : a.SameMethod b) (callers : List Activation) :
    (callers.getLastD a).SameMethod (callers.getLastD b) := by
  cases callers with
  | nil => exact h
  | cons c callers => exact ⟨rfl, rfl⟩

/-- A step doesn't change which method was entered first. -/
theorem root_step (h : m.step s = .running t) : t.root.SameMethod s.root := by
  simp only [root]
  rcases restacks_step h with
    ⟨hsame, hcur⟩ | ⟨b, hsame, hcur⟩ | ⟨b, method, d, args, hsame, hb, hd, -, hcur⟩
  · rw [hsame]
    exact sameMethod_getLastD hcur _
  · rw [hsame, List.getLastD_cons]
    exact sameMethod_getLastD hcur _
  · rw [hsame, List.getLastD_cons]
    exact sameMethod_getLastD hb _

variable {trail : List CallState}

theorem Advances.loaded (h : m.Advances s trail t) (hs : s.Loaded m) : t.Loaded m := by
  induction h with
  | refl => exact hs
  | step next _ ih => exact ih (loaded_step hs next)

theorem Advances.hasBody (h : m.Advances s trail t) (hs : ∀ a ∈ s.active, a.method.hasBody) :
    ∀ a ∈ t.active, a.method.hasBody := by
  induction h with
  | refl => exact hs
  | step next _ ih => exact ih (hasBody_step hs next)

theorem Advances.root (h : m.Advances s trail t) : t.root.SameMethod s.root := by
  induction h with
  | refl => exact ⟨rfl, rfl⟩
  | step next _ ih => exact ⟨ih.owner.trans (root_step next).owner, ih.method.trans (root_step next).method⟩

end Machine

end Resumable
