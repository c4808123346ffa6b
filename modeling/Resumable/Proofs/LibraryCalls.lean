import Resumable.Proofs.MadeWorlds
import Resumable.Proofs.Starts

/-!
# Calls with nothing but the library

Verified code can't go wrong as long as natives keep their promises.  On a machine that has no
natives but the library's, and whose methods don't box by virtual invocations, they all do.  So
wherever a call gets to, all values are what the analysis takes them for, states hold arrays of
objects, and no call ends with a type error.
-/

namespace Resumable

namespace Library

variable {w w' : World} {args : List Value} {e : MachineError}

theorem isTypeError_receiver (h : receiver w args = .error e) : e.isTypeError = false := by
  unfold receiver at h
  split at h <;> cases h
  rfl

theorem isTypeError_capability (h : capability w args = .error e) : e.isTypeError = false := by
  rcases Except.bind_eq_error.1 h with h | ⟨o, -, h⟩
  · exact isTypeError_receiver h
  · cases o <;> cases h <;> rfl

theorem isTypeError_methodState (h : methodState w args = .error e) : e.isTypeError = false := by
  rcases Except.bind_eq_error.1 h with h | ⟨o, -, h⟩
  · exact isTypeError_receiver h
  · cases o <;> cases h <;> rfl

theorem isTypeError_intArgument {index : Nat} (h : intArgument args index = .error e) :
    e.isTypeError = false := by
  unfold intArgument at h
  split at h <;> cases h
  rfl

theorem isTypeError_stateArgument {index : Nat} (h : stateArgument w args index = .error e) :
    e.isTypeError = false := by
  unfold stateArgument at h
  split at h
  · split at h <;> cases h
    rfl
  · cases h
    rfl

/-- The library fails for reasons of its own. -/
theorem isTypeError_operation {method : MethodRef} {operation : World → List Value → Outcome}
    (hmem : (method, operation) ∈ operations) (h : operation w args = .error e) :
    e.isTypeError = false := by
  simp only [operations, List.mem_append, List.mem_cons, List.not_mem_nil, or_false,
    List.mem_flatMap, Prod.mk.injEq] at hmem
  rcases hmem with (⟨-, rfl⟩ | ⟨-, rfl⟩ | ⟨-, rfl⟩ | ⟨-, rfl⟩ | ⟨-, rfl⟩ | ⟨-, rfl⟩ |
    ⟨-, rfl⟩ | ⟨-, rfl⟩ | ⟨-, rfl⟩) | ⟨k, -, ⟨-, rfl⟩ | ⟨-, rfl⟩⟩
  · cases h
    rfl
  · rcases Except.bind_eq_error.1 h with h | ⟨cell, -, h⟩
    · exact isTypeError_capability h
    · cases h
  · rcases Except.bind_eq_error.1 h with h | ⟨cell, -, h⟩
    · exact isTypeError_capability h
    · rcases Except.bind_eq_error.1 h with h | ⟨mode, -, h⟩
      · exact isTypeError_intArgument h
      · cases h
  · rcases Except.bind_eq_error.1 h with h | ⟨state, -, h⟩
    · exact isTypeError_stateArgument h
    · rcases Except.bind_eq_error.1 h with h | ⟨cell, -, h⟩
      · exact isTypeError_capability h
      · cases h
  · rcases Except.bind_eq_error.1 h with h | ⟨cell, -, h⟩
    · exact isTypeError_capability h
    · split at h <;> cases h
      rfl
  · unfold createState at h
    split at h <;> cases h <;> rfl
  · rcases Except.bind_eq_error.1 h with h | ⟨parts, -, h⟩
    · exact isTypeError_methodState h
    · cases h
  · rcases Except.bind_eq_error.1 h with h | ⟨parts, -, h⟩
    · exact isTypeError_methodState h
    · cases h
  · rcases Except.bind_eq_error.1 h with h | ⟨parts, -, h⟩
    · exact isTypeError_methodState h
    · cases h
  · unfold box at h
    split at h <;> cases h
    rfl
  · rcases Except.bind_eq_error.1 h with h | ⟨o, -, h⟩
    · exact isTypeError_receiver h
    · cases o <;> cases h <;> rfl

theorem isTypeError_of_lookup {method : MethodRef} {n : Native}
    (registered : natives.lookup method = some n) (h : n w args = (.error e, w')) :
    e.isTypeError = false := by
  obtain ⟨operation, hmem, rfl⟩ := exists_operation registered
  unfold native at h
  cases hanswer : operation w args with
  | ok answer =>
      obtain ⟨result, u⟩ := answer
      rw [hanswer] at h
      cases h
  | error e' =>
      rw [hanswer] at h
      cases h
      exact isTypeError_operation hmem hanswer

end Library

namespace CallState

variable {s : CallState} {known : Nat → Prop} {kind : InvokeKind} {method : MethodRef}
  {args : List Value}

/-- The arguments of an invocation are of the types that it takes them for. -/
theorem Typed.fits_of_invocation? (hs : s.Typed known)
    (h : s.invocation? = some (kind, method, args)) :
    List.Forall₂ (fun v t => s.world.isInstance v t) args (Machine.argumentTypes method kind) := by
  obtain ⟨hi, f, hexecute⟩ := Machine.execute_of_invocation? h
  obtain ⟨frames, g, i, g', hp⟩ := hs.runs.poised hs.world
  have hforeseen := hp.executes
  obtain rfl : i = .invoke kind method := Option.some.inj (hp.get?.symm.trans hi)
  simp only [ValueFrame.Executes, hexecute] at hforeseen
  obtain ⟨-, -, hforeseen⟩ := hforeseen
  cases hforeseen with
  | call here fit stack conforms => exact fit.imp fun _ _ h => h.1

end CallState

namespace Machine

variable {m : Machine} {s t : CallState} {w : World}

/-- True if all code of the machine has been verified, it has no natives but the library's, and no
method that it finds boxes by a virtual invocation. -/
structure SelfContained (m : Machine) : Prop where
  verified : m.Verified
  natives : ∀ method, m.native? method = Library.natives.lookup method
  boxes : ∀ method declared, m.method? method = some declared →
    ∀ k : NumericKind, .invoke .virtual k.box ∉ declared.body.instructions

/-- The invariant of calls on such machines. -/
structure Sure (m : Machine) (s : CallState) : Prop where
  typed : s.Typed fun _ => True
  genuine : s.world.Genuine
  loaded : s.Loaded m

/-- The native that's called next keeps its promise. -/
theorem Sure.honours (hs : m.Sure s) (hm : m.SelfContained) {kind : InvokeKind}
    {method : MethodRef} {args : List Value} {n : Native}
    (hcall : s.invocation? = some (kind, method, args)) (hn : m.native? method = some n) :
    s.world.Honours method.type.returns (n s.world args) := by
  apply Library.honours_of_lookup ((hm.natives method).symm.trans hn) hs.genuine
    (hs.typed.fits_of_invocation? hcall)
  rintro rfl k rfl
  have hloaded := hs.loaded s.current List.mem_cons_self
  apply hm.boxes _ _ hloaded k
  exact List.mem_of_getElem? (execute_of_invocation? hcall).1

theorem exists_of_nativeStep? {method : MethodRef}
    {outcome : Except MachineError (Option Value) × World}
    (h : m.nativeStep? s = some (method, outcome)) :
    ∃ kind args, s.invocation? = some (kind, method, args) ∧
      m.nativeOutcome? s.world kind method args = some outcome := by
  obtain ⟨⟨kind, method', args⟩, hcall, h⟩ := Option.bind_eq_some_iff.1 h
  obtain ⟨outcome', houtcome, h⟩ := Option.map_eq_some_iff.1 h
  cases h
  exact ⟨kind, args, hcall, houtcome⟩

theorem exists_of_nativeOutcome? {kind : InvokeKind} {method : MethodRef} {args : List Value}
    {outcome : Except MachineError (Option Value) × World}
    (h : m.nativeOutcome? w kind method args = some outcome) :
    ∃ n, m.native? method = some n ∧ n w args = outcome := by
  unfold nativeOutcome? at h
  split at h
  · cases h
  · exact Option.map_eq_some_iff.1 h

theorem SelfContained.isTypeError_of_outcome (hm : m.SelfContained) {kind : InvokeKind}
    {method : MethodRef} {args : List Value} {e : MachineError} {w' : World}
    (h : m.nativeOutcome? w kind method args = some (.error e, w')) : e.isTypeError = false := by
  obtain ⟨n, hn, hanswer⟩ := exists_of_nativeOutcome? h
  exact Library.isTypeError_of_lookup ((hm.natives method).symm.trans hn) hanswer

/-- Arrays hold what they should hold after a native of the library has run. -/
theorem arraysSound_of_follows {w' : World} (hw : w.ArraysSound) (h : w.Follows w') :
    w'.ArraysSound := by
  intro a element values ha v hv
  exact h.evolves.isInstance (hw a element values (h.arrays a element values ha) v hv)

theorem Sure.keepsPromise (hs : m.Sure s) (hm : m.SelfContained) : m.KeepsPromise s := by
  intro method result w' h
  obtain ⟨kind, args, hcall, houtcome⟩ := exists_of_nativeStep? h
  obtain ⟨n, hn, hanswer⟩ := exists_of_nativeOutcome? houtcome
  have honours := hs.honours hm hcall hn
  rw [hanswer] at honours
  cases honours with
  | gives promised follows =>
      have harrays := World.sound_all_iff.1 hs.typed.world
      exact ⟨promised, arraysSound_of_follows harrays follows, follows.evolves⟩

/-- What the next native says keeps the invariant of the analysis. -/
theorem Sure.keeps (hs : m.Sure s) (hm : m.SelfContained) {method : MethodRef}
    {outcome : Except MachineError (Option Value) × World}
    (h : m.nativeStep? s = some (method, outcome)) :
    s.world.Keeps (fun _ => True) method.type.returns outcome := by
  intro result hresult
  obtain ⟨answer, w'⟩ := outcome
  cases hresult
  obtain ⟨promised, arrays, evolves⟩ := hs.keepsPromise hm method result w' h
  exact ⟨promised, fun v _ => v.known_all, World.sound_all_iff.2 arrays, evolves⟩

/-- Each step of verified code keeps the invariant. -/
theorem Sure.step (hs : m.Sure s) (hm : m.SelfContained) (h : m.step s = .running t) :
    m.Sure t := by
  refine ⟨?typed, ?genuine, loaded_step hs.loaded h⟩
  case typed =>
    have htyped := (typed_step hm.verified hs.typed fun _ _ => hs.keeps hm).1
    rw [h] at htyped
    exact htyped
  case genuine =>
    rcases running_cases h with
      hchanges | ⟨kind, method, args, n, result, hcall, hn, hanswer⟩
    · exact hs.genuine.changes hchanges
    · have honours := hs.honours hm hcall hn
      rw [hanswer] at honours
      exact honours.genuine hs.genuine

/-- A step that ends the call ends it without a type error. -/
theorem Sure.isTypeError_of_last (hs : m.Sure s) (hm : m.SelfContained) {c : Completion}
    {e : CallError} (h : m.step s = .over c) (hc : c.result = .error e) :
    e.cause.isTypeError = false := by
  rw [Bool.eq_false_iff]
  intro he
  have hlast := (typed_step hm.verified hs.typed fun _ _ => hs.keeps hm).2
  rw [h] at hlast
  obtain ⟨method, w', hnative⟩ := hlast e hc he
  obtain ⟨kind, args, -, houtcome⟩ := exists_of_nativeStep? hnative
  rw [hm.isTypeError_of_outcome houtcome] at he
  cases he

/-- All states that a call visits keep it. -/
theorem Sure.visits {status : CallStatus} (h : m.Visits status t)
    (hstart : ∀ s, status = .running s → m.Sure s) (hm : m.SelfContained) : m.Sure t := by
  induction h with
  | start s => exact hstart s rfl
  | step _ _ next ih => exact (ih hstart).step hm next

theorem sure_start (hm : m.SelfContained) (arrays : w.ArraysSound) (genuine : w.Genuine)
    {owner name descriptor : String} {args : List Value}
    (h : m.start w owner name descriptor args = .running s) : m.Sure s where
  typed := typed_start hm.verified (World.sound_all_iff.2 arrays) (fun v _ => v.known_all) h
  genuine := (world_of_start h).symm ▸ genuine
  loaded := loaded_start h

/-- No call on a machine with nothing but the library runs into a type error, if arrays and states
hold what they should when it starts. -/
theorem SelfContained.isTypeError_of_call (hm : m.SelfContained) (arrays : w.ArraysSound)
    (genuine : w.Genuine) {fuel : Nat} {owner name descriptor : String} {args : List Value}
    {c : Completion} {e : CallError} (h : m.call fuel w owner name descriptor args = some c)
    (hc : c.result = .error e) : e.cause.isTypeError = false := by
  have hstart (s : CallState) (hs : m.start w owner name descriptor args = .running s) :
      m.Sure s := sure_start hm arrays genuine hs
  unfold call at h
  cases hs : m.start w owner name descriptor args with
  | «over» c' =>
      rw [hs] at h
      obtain rfl : c' = c := by cases fuel <;> simpa [run] using h
      rw [Bool.eq_false_iff]
      intro he
      obtain ⟨type, kind, w', -, houtcome⟩ := typeError_of_start hs hc he
      rw [hm.isTypeError_of_outcome houtcome] at he
      cases he
  | running s =>
      rw [hs] at h hstart
      obtain ⟨t, ht, hlast⟩ := exists_last_of_run
        (fun s hs => (Sure.visits hs hstart hm).keepsPromise hm) (.start s) h
      have sure := Sure.visits ht hstart hm
      exact sure.isTypeError_of_last hm hlast hc

end Machine

end Resumable
