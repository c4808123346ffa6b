import Resumable.Proofs.Coroutines
import Resumable.Proofs.Transparency

/-!
# Suspensions that nobody notices

A coroutine is resumed until it's finished.  It ends like one call of the original method on a
machine on which suspending does nothing, and asks the same of the host on the way, however often it
has suspended itself.

The call with the original methods and the coroutine run next to each other, each in a world of its
own.  Where the first one does nothing, the second one suspends itself, and is back at the same
place after the next call has taken all states back.
-/

namespace Resumable

open CallState Machine

namespace Machine

/-- The machine on which suspending does nothing. -/
def sleepless (m : Machine) : Machine := m.register Capability.suspend fun w _ => (.ok none, w)

variable {m m₀ : Machine} {s t : CallState} {method : MethodRef}

theorem native?_suspend (m : Machine) :
    m.sleepless.native? Capability.suspend = some fun w _ => (.ok none, w) := by
  simp [native?, sleepless, register]

theorem native?_sleepless (h : method ≠ Capability.suspend) :
    m.sleepless.native? method = m.native? method := by
  have hne : (method == Capability.suspend) = false := beq_false_of_ne h
  simp only [native?, sleepless, register, List.lookup_cons, hne]
  induction m.natives with
  | nil => rfl
  | cons x natives ih =>
      obtain ⟨key, native⟩ := x
      by_cases hkey : key = Capability.suspend
      · subst hkey
        rw [List.filter_cons_of_neg (by simp), ih, List.lookup_cons, hne]
      · rw [List.filter_cons_of_pos (by simpa using hkey), List.lookup_cons, List.lookup_cons, ih]

theorem invoke_sleepless (h : method ≠ Capability.suspend) (active : Nat) (w : World)
    (kind : InvokeKind) (args : List Value) :
    m.sleepless.invoke active w kind method args = m.invoke active w kind method args := by
  simp only [invoke, native?_sleepless h]
  rfl

end Machine

theorem Library.stands_of_capability {w : World} {args : List Value} {n : Nat}
    (h : (capability w args).toOption = some n) : ∃ c rest, args = c :: rest ∧ w.Stands n c := by
  simp only [capability] at h
  cases hreceiver : receiver w args with
  | error cause =>
      rw [hreceiver] at h
      cases h
  | ok o =>
      obtain ⟨a, rest, rfl, ho⟩ := receiver_eq_ok hreceiver
      rw [hreceiver] at h
      cases o with
      | capability cell =>
          cases h
          exact ⟨_, rest, rfl, a, rfl, ho⟩
      | _ => cases h

namespace CallState

variable {m m₀ : Machine} {known : Nat → Prop} {s t : CallState}

/-- True if the next step invokes the method that suspends. -/
def suspending (s : CallState) : Bool :=
  s.invocation?.any fun (_, method, _) => method = Capability.suspend

theorem exists_of_suspending (h : s.suspending) :
    ∃ kind args, s.invocation? = some (kind, Capability.suspend, args) := by
  cases hcall : s.invocation? with
  | none => simp [suspending, hcall] at h
  | some call =>
      obtain ⟨kind, method, args⟩ := call
      obtain rfl : method = Capability.suspend := by simpa [suspending, hcall] using h
      exact ⟨kind, args, rfl⟩

theorem hostCall?_of_suspending (h : s.suspending) : m.hostCall? s = none := by
  obtain ⟨kind, args, hcall⟩ := exists_of_suspending h
  rw [hostCall?, hcall, Option.bind_some]
  exact if_neg fun hhost => hhost.2 rfl

/-- Steps that don't suspend are the same. -/
theorem step_sleepless (h : s.suspending = false) : m.sleepless.step s = m.step s := by
  have hfollow (i : Instruction) (hi : s.current.method.body.get? s.current.position = some i) :
      step.execute m.sleepless s i = step.execute m s i := by
    simp only [step.execute]
    cases hexecute : s.current.frame.execute s.world i with
    | error cause => rfl
    | ok outcome =>
        obtain ⟨flow, f, w⟩ := outcome
        cases flow with
        | call kind method args =>
            have hcall : s.invocation? = some (kind, method, args) := by
              simp only [invocation?, hi, Option.bind_some, hexecute]
            have hne : method ≠ Capability.suspend := by
              simpa [suspending, hcall] using h
            simp only [follow, invoke_sleepless hne]
        | _ => rfl
  simp only [Machine.step]
  cases hi : s.current.method.body.get? s.current.position with
  | none => rfl
  | some i =>
      dsimp only
      rw [hfollow i hi]
      rfl

/-- Where a method would suspend, the machine goes on at the next instruction. -/
theorem step_suspend (hlimit : m.limits.instructions = none) (hs : s.Typed known)
    {kind : InvokeKind} {args : List Value} {n : Nat}
    (hcall : s.invocation? = some (kind, Capability.suspend, args))
    (hn : (Library.capability s.world args).toOption = some n) :
    s.current.method.body.get? s.current.position = some (.invoke .virtual Capability.suspend) ∧
      m.sleepless.step s = .running s.awake := by
  obtain ⟨hi, -⟩ := execute_of_invocation? hcall
  rw [hs.invocation? hi] at hcall
  obtain ⟨c, rest, rfl, hc⟩ := Library.stands_of_capability hn
  obtain ⟨w, executed, ⟨owner, d, p, ⟨locals, stack⟩⟩, callers⟩ := s
  dsimp only at hc hcall hi
  obtain ⟨stack', rfl, rfl⟩ : ∃ stack', kind = .virtual ∧ stack = c :: stack' := by
    cases kind with
    | static => cases hcall
    | virtual =>
        cases stack with
        | nil => cases hcall
        | cons v stack' =>
            cases hcall
            exact ⟨stack', rfl, rfl⟩
  refine ⟨hi, ?_⟩
  have hexecute : ValueFrame.execute w ⟨locals, c :: stack'⟩ (.invoke .virtual Capability.suspend) =
      .ok (.call .virtual Capability.suspend [c], ⟨locals, stack'⟩, w) :=
    @ValueFrame.execute_invoke w locals [c] stack' .virtual Capability.suspend rfl
  have hinvoke (active : Nat) : m.sleepless.invoke active w .virtual Capability.suspend [c] =
      .returned none w := by
    simp [invoke, native?_suspend, Snapshot.not_isNull_of_stands hc]
  rw [step_eq_execute (m := m.sleepless) hlimit hi]
  simp only [step.execute, hexecute, follow, hinvoke]
  rfl

end CallState

namespace Activation.Alike

theorem renamed_right {ρ : Renaming} {q : Nat} {a b b' : Activation} (h : b.Alike q b')
    (ha : a.Renamed ρ q b) : a.Renamed ρ q b' := by
  refine ⟨h.owner.trans ha.owner, h.method.trans ha.method, h.position.trans ha.position,
    fun frames g hframes hg => ?_⟩
  obtain ⟨hlocals, hstack⟩ := ha.frame frames g hframes hg
  refine ⟨fun k type htype htop => ?_, h.stack ▸ hstack⟩
  rw [← ha.method, ← ha.owner] at hframes
  rw [h.locals frames g hframes hg k type htype htop]
  exact hlocals k type htype htop

end Activation.Alike

namespace CallState

variable {m m₀ : Machine} {held cells known : Nat → Prop} {ρ : Renaming} {r s t t' : CallState}

/-- Calls that are the same but for addresses are so still where nothing is suspended. -/
theorem Renamed.awake (h : r.Renamed ρ t) (hr : r.Typed known)
    (hi : r.current.method.body.get? r.current.position =
      some (.invoke .virtual Capability.suspend)) : r.awake.Renamed ρ t.awake := by
  obtain ⟨frames, g, i, g', hp⟩ := hr.runs.poised hr.world
  obtain rfl := Option.some.inj (hi.symm.trans hp.get?)
  obtain ⟨type, -, rfl⟩ := Method.rule_isSuspend rfl hp.rule
  have hframe := h.current.frame frames _ hp.analyze hp.frame
  have hafter : ValueFrame.Renamed ρ g'.locals
      ⟨r.current.frame.locals, r.current.frame.stack.tail⟩
      ⟨t.current.frame.locals, t.current.frame.stack.tail⟩ := by
    refine ⟨hframe.locals, ?_⟩
    rw [← List.drop_one, ← List.drop_one]
    exact List.forall₂_drop 1 hframe.stack
  refine ⟨h.world, ?_, h.callers⟩
  simp only [CallState.awake, spot, h.current.position]
  exact hp.renamed h.current (.next hp.get? rfl) hafter (r.current.position + 1)

/-- Locals of which the analysis knows nothing don't matter. -/
theorem Renamed.alike (h : r.Renamed ρ t) (hworld : r.world.Renamed ρ t'.world)
    (hcurrent : t.current.Alike t.current.position t'.current)
    (hcallers : List.Forall₂ (fun a b => a.Alike (a.position + 1) b) t.callers t'.callers) :
    r.Renamed ρ t' := by
  refine ⟨hworld, ?_, List.forall₂_iff_get.2
    ⟨h.callers.length_eq.trans hcallers.length_eq, fun k h₁ h₂ => ?_⟩⟩
  · rw [h.current.position] at hcurrent
    exact hcurrent.renamed_right h.current
  · have h₀ : k < t.callers.length := h.callers.length_eq ▸ h₁
    have hsame := (List.forall₂_iff_get.1 h.callers).2 k h₁ h₀
    have halike := (List.forall₂_iff_get.1 hcallers).2 k h₀ h₂
    rw [hsame.position] at halike
    exact halike.renamed_right hsame

theorem Stacked.types {w : World} {owner : String} {callee : Method}
    {callers callers₀ : List Activation}
    (h : Stacked m cells known w owner callee callers callers₀) :
    List.Forall₂ (fun a a₀ => a.method.type = a₀.method.type) callers callers₀ := by
  induction h with
  | nil => exact .nil
  | cons blocked _ ih =>
      refine .cons ?_ ih
      cases blocked with
      | plain h => rfl
      | resumable carries => exact carries.resumes.type

/-- Methods that are active on both sides take the same arguments. -/
theorem Shadows.types (h : Shadows m held cells ρ r s) :
    List.Forall₂ (fun a a₀ => a.method.type = a₀.method.type) s.active r.active := by
  obtain ⟨-, -, renamed, mirrors, -, -, -, -⟩ := h
  refine .cons ?_ ?_
  · rw [← renamed.current.method]
    have hcurrent := mirrors.current
    generalize s.current = a at hcurrent
    cases hcurrent with
    | plain h => rfl
    | resumable carries => exact carries.resumes.type
  · refine List.forall₂_iff_get.2 ⟨mirrors.callers.length_eq.trans
      renamed.callers.length_eq.symm, fun k h₁ h₂ => ?_⟩
    have h₀ := renamed.callers.length_eq ▸ h₂
    rw [← ((List.forall₂_iff_get.1 renamed.callers).2 k h₂ h₀).method]
    exact (List.forall₂_iff_get.1 mirrors.callers.types).2 k h₁ h₀

end CallState

/-- True if the first machine has the units of the second one, all of them instrumented, and natives
that can be relied on. -/
structure Machine.InstrumentsAll (m m₀ : Machine) (held : Nat → Prop) : Prop
    extends m.Instruments m₀ held where
  all : List.Forall₂ (fun u u₀ => u₀.flags.isInstrumented = false ∧
    ∃ settings n, u₀.instrument settings = .ok (n, u)) m.units m₀.units

namespace Machine.InstrumentsAll

variable {m m₀ : Machine} {held held' : Nat → Prop}

theorem mono (h : m.InstrumentsAll m₀ held) (hheld : ∀ a, held a → held' a) :
    m.InstrumentsAll m₀ held' :=
  ⟨⟨h.made, h.assembled, h.equipped, fun method native hn hhost =>
    (h.host method native hn hhost).mono hheld⟩, h.all⟩

/-- All methods that may suspend are resumable. -/
theorem marked (h : m.InstrumentsAll m₀ held) {method : MethodRef} {d : Method}
    (hd : m.method? method = some d) (heligible : d.type.isEligible) (hbody : d.hasBody) :
    d.access.isInstrumented := by
  have hmarked (hno : d.needsInstrumentation = false) : d.access.isInstrumented := by
    simpa [Method.needsInstrumentation, heligible, hbody] using hno
  obtain ⟨u, hu, -, hmem, -⟩ := method?_eq_some hd
  obtain ⟨u₀, -, hflags, settings, n, hmade⟩ := exists_mem_of_forall₂ h.all hu
  rcases CompiledUnit.instrument_cases hmade with ⟨-, rfl, hsame | hnone⟩ | ⟨-, -, -, hmethods⟩
  · rw [hflags] at hsame
    cases hsame.1
  · exact hmarked (hnone d hmem)
  · obtain ⟨d₀, -, hinstrument⟩ := exists_mem_of_forall₂ hmethods hmem
    rcases Method.instrument_eq_ok hinstrument with ⟨hno, rfl⟩ | ⟨-, frames, resumes⟩
    · exact hmarked hno
    · exact resumes.marked

end Machine.InstrumentsAll

/-- True if the next step, on a machine on which suspending does nothing, calls no method of the
capability's type but to suspend.  It does so with the capability with the given number, while only
methods are active that may suspend.  That capability is handed to all methods that are entered and
may suspend, and natives give what they promise. -/
structure CallState.Faithful (m₀ : Machine) (n : Nat) (t : CallState) : Prop where
  suspends : ∀ kind method args, t.invocation? = some (kind, method, args) →
    method.owner = Capability.typeName → method = Capability.suspend ∧
      (Library.capability t.world args).toOption = some n ∧ ∀ a ∈ t.active, a.method.type.isEligible
  handsOver : t.HandsOver m₀ (· = n)
  keeps : ∀ kind method args native result u, t.invocation? = some (kind, method, args) →
    m₀.native? method = some native → native t.world args = (.ok result, u) →
      u.Promised result method.type.returns

theorem CallState.Faithful.ordinary {m₀ : Machine} {n : Nat} {t : CallState}
    (h : t.Faithful m₀ n) (ht : t.suspending = false) : t.Ordinary m₀ (· = n) := by
  refine ⟨fun kind method args hcall howner => ?_, h.handsOver, h.keeps⟩
  obtain ⟨rfl, -⟩ := h.suspends kind method args hcall howner
  simp [CallState.suspending, hcall] at ht

theorem Completion.Renamed.exists_ok {ρ : Renaming} {c c' : Completion} {v' : Option Value}
    (h : c.Renamed ρ c') (hc : c'.result = .ok v') : ∃ v, c.result = .ok v := by
  have hresult := h.result
  rw [hc] at hresult
  cases hv : c.result with
  | ok v => exact ⟨v, rfl⟩
  | error e =>
      rw [hv] at hresult
      cases hresult

/-- True if the last call of a coroutine has ended like the other call. -/
structure Resumption.Reflects (ρ : Renaming) (r : Resumption) (c : Completion) : Prop where
  world : c.world.Renamed ρ r.world
  result : Attempt.Renamed ρ
    (fun v x => ∃ v', x = Resumed.finished v' ∧ Option.Rel (Value.Renamed ρ) v v')
    (c.result.mapError (·.cause)) (r.result.mapError (·.cause))

namespace Coroutine

/-- True if the coroutine is finished in the last of several calls, after it has suspended itself as
often as the number says.  The calls go through the states of the trail. -/
inductive Finishes (m : Machine) : Coroutine → World → Nat → List CallState → Resumption → Prop
  | last {c : Coroutine} {w : World} {trail : List CallState} {r : Resumption}
      (goes : c.Goes m w trail r) (finished : r.coroutine.state = .finished) :
      Finishes m c w 0 trail r
  | again {c : Coroutine} {w : World} {trail trail' : List CallState} {r r' : Resumption} {k : Nat}
      (goes : c.Goes m w trail r) (suspended : r.result = .ok .suspended)
      (rest : Finishes m r.coroutine r.world k trail' r') :
      Finishes m c w (k + 1) (trail ++ trail') r'

variable {m m₀ : Machine} {held : Nat → Prop} {n : Nat} {ρ : Renaming} {c : Coroutine}
  {w : World} {front : List CallState} {r s : CallState}

theorem reflects_settle {completion completion' : Completion}
    (h : completion.Renamed ρ completion') (hmode : ∀ result, completion'.result = .ok result →
      (completion'.world.cell c.cell).mode ≠ Capability.saving) :
    (c.settle completion').coroutine.state = .finished ∧
      (c.settle completion').Reflects ρ completion := by
  refine ⟨(settle_of_not_saving c completion' hmode).1, ?_⟩
  obtain ⟨hworld, hresult⟩ := h
  unfold settle
  cases hend : completion'.result with
  | error e =>
      rw [hend] at hresult
      refine ⟨hworld, ?_⟩
      dsimp only
      generalize completion.result.mapError (·.cause) = x at hresult
      cases hresult with
      | error errors => exact .error errors
  | ok result =>
      rw [hend] at hresult
      have hnot : (completion'.world.cell c.cell).isSaving = false := by
        simpa [CapabilityCell.isSaving] using hmode result hend
      simp only [hnot]
      refine ⟨hworld, ?_⟩
      generalize completion.result.mapError (·.cause) = x at hresult
      cases hresult with
      | ok results => exact .ok ⟨result, rfl, results⟩

/-- True if the coroutine is being resumed, and its call has got, by way of the states of the trail,
to a state in the shadow of the call with the original methods. -/
structure Follows (m m₀ : Machine) (held : Nat → Prop) (n : Nat) (ρ : Renaming) (c : Coroutine)
    (w : World) (front : List CallState) (r s : CallState) : Prop where
  cell : c.cell = n
  unfinished : c.state ≠ .finished
  args : ∀ v ∈ c.args, v.Known held
  started : ∃ s₀, c.start m w = .running s₀ ∧ m.Advances s₀ front s
  evolves : (c.calling w).Evolves s.world
  shadows : CallState.Shadows m held (· = n) ρ r s
  loaded : r.Loaded m₀
  initial : r.world.capabilities[n]? = some .initial

namespace Follows

/-- Methods that are active when a call suspends itself are resumable. -/
theorem marked (hm : m.InstrumentsAll m₀ held) (h : Follows m m₀ held n ρ c w front r s)
    (hr : ∀ a ∈ r.active, a.method.type.isEligible) :
    ∀ a ∈ s.active, a.method.access.isInstrumented := by
  obtain ⟨s₀, hstart, hadvances⟩ := h.started
  have hloaded := hadvances.loaded (loaded_start hstart)
  have hbody := hadvances.hasBody (hasBody_of_start hstart)
  intro a ha
  obtain ⟨b, hb, htype⟩ := exists_mem_of_forall₂ h.shadows.types ha
  exact hm.marked (hloaded a ha) (htype ▸ hr b hb) (hbody a ha)

/-- Where the other call does nothing, the coroutine suspends itself, and the next call gets to the
same place again. -/
theorem suspends (hm : m.InstrumentsAll m₀ held) (h : Follows m m₀ held n ρ c w front r s)
    (hr : r.Faithful m₀ n) (hsuspending : r.suspending) :
    ∃ after t front' s', m₀.sleepless.step r = .running r.awake ∧ c.Goes m w (front ++ after) t ∧
      t.result = .ok .suspended ∧ Follows m m₀ held n ρ t.coroutine t.world front' r.awake s' ∧
      m.hostCalls after = [] ∧ m.hostCalls front' = [] := by
  obtain ⟨kind, args, hcall⟩ := exists_of_suspending hsuspending
  obtain ⟨-, hn, heligible⟩ := hr.suspends kind _ args hcall rfl
  have hactive := h.marked hm heligible
  obtain ⟨rfl, unfinished, hargs, ⟨s₀, hstart, hadvances⟩, evolves, shadows, loaded, initial⟩ := h
  obtain ⟨tame₀, tame, renamed, mirrors, holds₀, holds, pairs, capabilities⟩ := shadows
  rename_i known₀ known t
  obtain ⟨hi, hstep⟩ := step_suspend hm.limit tame₀.typed hcall hn
  have hi' := hi
  rw [← renamed.current.method, ← renamed.current.position] at hi'
  have hinitial : s.world.capabilities[c.cell]? = some .initial := capabilities ▸ initial
  -- The coroutine suspends itself.
  obtain ⟨after, result, u, states, hcompletes, hcalm, -, hgrows, hcell, hasleep⟩ :=
    mirrors.suspends hm.equipped tame (renamed.loaded loaded) hi' hactive
      (Array.getElem?_eq_some_iff.1 hinitial).1
  rw [cell_of_getElem? hinitial] at hcell
  have hsaving : (u.cell c.cell).mode = Capability.saving := by rw [hcell]
  have hgoes := Goes.intro unfinished (hstart ▸ hadvances.completes hcompletes)
  rw [settle_of_saving rfl hsaving] at hgoes
  have htame := (tame.awake hi').extends (u := u) fun a o ho =>
    hgrows.objects a o (mirrors.world ▸ ho)
  have hroot : s.root.SameMethod s₀.current := by
    have hroot := hadvances.root
    rwa [CallState.root, CallState.root, callers_of_start hstart] at hroot
  have dormant : Dormant m m₀ held known { c with state := .suspended } u s t states :=
    ⟨rfl, ⟨htame.tidy, holds, fun v hv => (hargs v hv).mono holds⟩,
      by simp [hcell, CapabilityCell.initial], hasleep, htame, renamed.loaded loaded, c.calling w,
        w.objects.size, s₀, c.object?_calling w,
      evolves.trans hgrows.objects.proceeds.evolves, hstart, hroot⟩
  -- The next call gets back.
  obtain ⟨s₁, early, late, s', t', hagain, back, -, htame', -⟩ :=
    dormant.replays hm.equipped hm.made hm.verified
  have hback := back.grows
  rw [world_of_start hagain] at hback
  have hall : World.GrowsBut c.cell s.world s'.world :=
    hgrows.trans ((growsBut_calling { c with state := .suspended } u).trans hback)
  have hworld : r.world.Renamed ρ t'.world := by
    rw [back.mirrors.world]
    exact World.Renamed.extends (mirrors.world ▸ renamed.world) hall.objects hall.journal
  refine ⟨after, _, early ++ late, s', hstep, hgoes, rfl, ⟨rfl, by simp, hargs,
    ⟨s₁, hagain, back.advances⟩, hback.objects.proceeds.evolves, ⟨tame₀.awake hi, htame',
    (renamed.awake tame₀.typed hi).alike hworld back.running back.waiting, back.mirrors, holds₀,
    fun a ha => .inl (holds a ha), pairs, ?capabilities⟩, ?loaded, initial⟩,
    hostCalls_of_calm hcalm, back.hostCalls⟩
  case capabilities =>
    exact (hall.capabilities_eq (back.restored.trans (cell_of_getElem? hinitial).symm)).trans
      capabilities
  case loaded =>
    obtain ⟨hcurrent, hcallers⟩ := List.forall_mem_cons.1 loaded
    exact List.forall_mem_cons.2 ⟨hcurrent, hcallers⟩

/-- The coroutine ends like the other call, and asks the same of the host. -/
theorem finishes (hm : m.InstrumentsAll m₀ held) {trail : List CallState} {completion : Completion}
    (completes : m₀.sleepless.Completes (.running r) trail completion)
    (hfaithful : ∀ t ∈ trail, t.Faithful m₀ n) (h : Follows m m₀ held n ρ c w front r s) :
    ∃ ρ' k rest t, c.Finishes m w k (front ++ rest) t ∧ (∀ a a', ρ a a' → ρ' a a') ∧
      t.Reflects ρ' completion ∧ k = trail.countP suspending ∧
      List.Forall₂ (SameCall ρ') (m₀.hostCalls trail) (m.hostCalls rest) := by
  generalize hstatus : CallStatus.running r = status at completes
  induction completes generalizing ρ c w front r s with
  | «over» => cases hstatus
  | @step r trail completion rest ih =>
      cases hstatus
      rw [List.forall_mem_cons] at hfaithful
      obtain ⟨hr, hfaithful⟩ := hfaithful
      cases hsuspending : r.suspending with
      | true =>
          obtain ⟨after, t, front', s', hstep, hgoes, hresult, hfollows, hcalls, hcalls'⟩ :=
            h.suspends hm hr hsuspending
          obtain ⟨ρ', k, last, t', hfinishes, hmono, hreflects, hk, hsame⟩ :=
            ih hfaithful hfollows hstep.symm
          refine ⟨ρ', k + 1, after ++ (front' ++ last), t', ?_, hmono, hreflects, ?_, ?_⟩
          · rw [← List.append_assoc]
            exact .again hgoes hresult hfinishes
          · rw [List.countP_cons_of_pos hsuspending, hk]
          · rw [hostCalls_append, hostCalls_append, hcalls, hcalls', hostCalls_cons,
              hostCall?_of_suspending hsuspending]
            exact hsame
      | false =>
          rw [step_sleepless hsuspending] at rest ih
          have hn : (r :: trail).countP suspending = trail.countP suspending :=
            List.countP_cons_of_neg (by simp [hsuspending])
          cases h.shadows.step hm.toInstruments (hr.ordinary hsuspending) with
          | @running ρ₁ r' s' trail' next advances mono shadows evolves capabilities calls =>
              obtain ⟨s₀, hstart, hadvances⟩ := h.started
              obtain ⟨ρ', k, last, t', hfinishes, hmono, hreflects, hk, hsame⟩ :=
                ih hfaithful ⟨h.cell, h.unfinished, h.args, ⟨s₀, hstart, hadvances.trans advances⟩,
                  h.evolves.trans evolves, shadows, loaded_step h.loaded next,
                  capabilities ▸ h.initial⟩ next.symm
              refine ⟨ρ', k, trail' ++ last, t', ?_, fun a a' ha => hmono a a' (mono a a' ha),
                hreflects, hk.trans hn.symm, ?_⟩
              · rw [← List.append_assoc]
                exact hfinishes
              · rw [hostCalls_append, ← List.singleton_append, hostCalls_append]
                exact List.rel_append (calls.imp fun _ _ hcall => hcall.mono hmono) hsame
          | @«over» ρ' c₀ c' trail' next completes mono same capabilities calls =>
              rw [next] at rest
              cases rest
              obtain ⟨s₀, hstart, hadvances⟩ := h.started
              have hgoes := Goes.intro h.unfinished (hstart ▸ hadvances.completes completes)
              obtain ⟨hfinished, hreflects⟩ := reflects_settle (c := c) same fun result hresult => by
                obtain ⟨v, hv⟩ := same.exists_ok hresult
                have hinitial : c'.world.capabilities[n]? = some .initial :=
                  capabilities v hv ▸ h.initial
                rw [h.cell, cell_of_getElem? hinitial]
                decide
              exact ⟨ρ', 0, trail', _, .last hgoes hfinished, mono, hreflects, hn.symm, calls⟩

end Follows

end Coroutine

end Resumable
