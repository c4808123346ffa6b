import Resumable.Proofs.FrameExtension
import Resumable.Proofs.Passages
import Resumable.Proofs.Poised

/-!
# Runs that are the same but for addresses

Two calls of verified methods whose states are the same but for addresses go on side by side: both
end, with results or errors that belong together, or both get to such states again.  Locals of which
the analysis knows nothing may differ all the time, since no instruction looks at them.

Natives have to be such that they don't look at addresses either.
-/

namespace Resumable

variable {ρ ρ' : Renaming}

/-- True if the operand stacks are the same but for addresses, and so are the locals of which
something is known. -/
structure ValueFrame.Renamed (ρ : Renaming) (types : List FrameValue) (f f' : ValueFrame) :
    Prop where
  locals : ∀ (k : Nat) (type : FrameValue), types[k]? = some type → type ≠ .top →
    ∃ v v', f.locals[k]? = some v ∧ f'.locals[k]? = some v' ∧ v.Renamed ρ v'
  stack : List.Forall₂ (Value.Renamed ρ) f.stack f'.stack

theorem Attempt.Renamed.imp {α β : Type} {R S : α → β → Prop} {x : Attempt α} {y : Attempt β}
    (h : Attempt.Renamed ρ R x y) (hRS : ∀ a b, R a b → S a b) : Attempt.Renamed ρ S x y := by
  cases h with
  | ok results => exact .ok (hRS _ _ results)
  | error errors => exact .error errors

theorem Method.Rule.locals_eq {d : Method} {g g' : Frame} {i : Instruction} (h : d.Rule g i g')
    (hi : i.local? = none) : g'.locals = g.locals := by
  cases h with
  | store => cases hi
  | _ => rfl

namespace ValueFrame.Renamed

variable {f f' : ValueFrame} {types : List FrameValue} {w w' : World}

theorem mono (h : f.Renamed ρ types f') (hρ : ∀ a a', ρ a a' → ρ' a a') : f.Renamed ρ' types f' := by
  refine ⟨fun k type htype htop => ?_, h.stack.imp fun _ _ h => h.mono hρ⟩
  obtain ⟨v, v', hv, hv', hr⟩ := h.locals k type htype htop
  exact ⟨v, v', hv, hv', hr.mono hρ⟩

/-- Where less is known, less has to be the same. -/
theorem below {types' : List FrameValue} (h : f.Renamed ρ types f')
    (hbelow : List.Forall₂ FrameValue.Below types types') : f.Renamed ρ types' f' := by
  refine ⟨fun k type htype htop => ?_, h.stack⟩
  obtain ⟨type', htype', hb⟩ := getElem?_of_forall₂ hbelow htype
  exact h.locals k type' htype' (hb.ne_top htop)

/-- The locals after storing values that belong together, if no more is known of the other ones. -/
theorem set {types' : List FrameValue} {v v' : Value} {index : Nat} (h : f.Renamed ρ types f')
    (hkept : ∀ (k : Nat) (type : FrameValue), k ≠ index → type ≠ .top →
      types'[k]? = some type → types[k]? = some type)
    (hv : v.Renamed ρ v') (hindex : index < f.locals.length) (hindex' : index < f'.locals.length)
    {stack stack' : List Value} (hs : List.Forall₂ (Value.Renamed ρ) stack stack') :
    Renamed ρ types' ⟨f.locals.set index v, stack⟩ ⟨f'.locals.set index v', stack'⟩ := by
  refine ⟨fun k type htype htop => ?_, hs⟩
  by_cases hk : k = index
  · subst hk
    exact ⟨v, v', by simp [hindex], by simp [hindex'], hv⟩
  · obtain ⟨u, u', hu, hu', hr⟩ := h.locals k type (hkept k type hk htop htype) htop
    refine ⟨u, u', ?_, ?_, hr⟩
    · rw [List.getElem?_set_ne (Ne.symm hk), hu]
    · rw [List.getElem?_set_ne (Ne.symm hk), hu']

/-- An instruction does the same to both frames, as far as something is known of them. -/
theorem execute {d : Method} {g g' : Frame} {i : Instruction} (hw : w.Renamed ρ w')
    (h : f.Renamed ρ g.locals f') (hrule : d.Rule g i g')
    (hi : ∀ k, i.local? = some k → k < f.locals.length ∧ k < f'.locals.length) :
    Attempt.Renamed ρ (fun x x' => World.Renamed.Onward ρ w w' x.2.2 x'.2.2 fun ρ' =>
        x.1.Renamed ρ' x'.1 ∧ x.2.1.Renamed ρ' g'.locals x'.2.1)
      (f.execute w i) (f'.execute w' i) := by
  cases hlocal : i.local? with
  | none =>
      refine (hw.execute ⟨rfl, rfl, h.stack⟩ hlocal).imp ?_
      rintro ⟨flow, e, u⟩ ⟨flow', e', u'⟩ ⟨ρ', hmatching, hrenamed, hflow, halike⟩
      refine ⟨ρ', hmatching, hrenamed, hflow, fun k type htype htop => ?_, halike.stack⟩
      rw [hrule.locals_eq hlocal] at htype
      have hl := halike.locals
      have hl' := halike.locals'
      dsimp only at hl hl' ⊢
      rw [hl, hl']
      exact (h.mono hmatching.mono).locals k type htype htop
  | some k =>
      obtain ⟨hk, hk'⟩ := hi k hlocal
      cases hrule with
      | @load kind index t _ _ _ found hasKind =>
          obtain rfl : index.toNat = k := Option.some.inj hlocal
          obtain ⟨v, v', hv, hv', hr⟩ := h.locals _ t found (by rintro rfl; cases hasKind)
          simp only [ValueFrame.execute, ValueFrame.load, hv, hv']
          exact .ok (hw.stay ⟨.proceed, h.locals, .cons hr h.stack⟩)
      | @store kind index t _ _ hasKind =>
          obtain rfl : index.toNat = k := Option.some.inj hlocal
          obtain ⟨locals, stack⟩ := f
          obtain ⟨locals', stack'⟩ := f'
          have hs := h.stack
          dsimp only at hs
          cases hs with
          | nil => exact .misuse _ _
          | @cons v v' _ _ hv hs =>
              simp only [ValueFrame.execute, ValueFrame.pop, Except.ok_bind,
                ValueFrame.store_of_lt hk, ValueFrame.store_of_lt hk']
              refine .ok (hw.stay ⟨.proceed, h.set (fun j type hj htop htype => ?_) hv hk hk' hs⟩)
              rw [Frame.getElem?_storeLocals, if_neg hj] at htype
              grind
      | @increment index delta _ _ _ found =>
          obtain rfl : index.toNat = k := Option.some.inj hlocal
          obtain ⟨v, v', hv, hv', hr⟩ := h.locals _ .int found (by simp)
          simp only [ValueFrame.execute, ValueFrame.load, hv, hv', Except.ok_bind]
          cases hr with
          | int n =>
              have hstore : f.store index.toNat (.int (n + delta.toInt32)) = .ok _ := store_of_lt hk
              have hstore' : f'.store index.toNat (.int (n + delta.toInt32)) = .ok _ := store_of_lt hk'
              dsimp only
              rw [hstore, hstore']
              exact .ok (hw.stay ⟨.proceed, h.set (fun _ _ _ _ h => h) (.int _) hk hk' h.stack⟩)
          | _ => exact .misuse _ _
      | fixed effect =>
          cases i with
          | load | store | increment => cases effect
          | _ => cases hlocal
      | shuffle moves => cases moves <;> cases hlocal
      | _ => cases hlocal

end ValueFrame.Renamed

/-- True if two outcomes in worlds that were the same but for addresses still belong together. -/
def World.Renamed.Answers (ρ : Renaming) (w w' : World)
    (outcome outcome' : Except MachineError (Option Value) × World) : Prop :=
  World.Renamed.Onward ρ w w' outcome.2 outcome'.2 fun ρ' =>
    Attempt.Renamed ρ' (Option.Rel (Value.Renamed ρ')) outcome.1 outcome'.1

/-- True if both are of one method and at one position, and their frames are the same but for
addresses as far as something is known of them at the position `q`. -/
structure Activation.Renamed (ρ : Renaming) (q : Nat) (a a' : Activation) : Prop where
  owner : a'.owner = a.owner
  method : a'.method = a.method
  position : a'.position = a.position
  frame : ∀ frames g, a.method.analyze a.owner = .ok frames → frames.at? q = some g →
    a.frame.Renamed ρ g.locals a'.frame

/-- True if the states are the same but for addresses. -/
structure CallState.Renamed (ρ : Renaming) (s t : CallState) : Prop where
  world : s.world.Renamed ρ t.world
  current : s.current.Renamed ρ s.current.position t.current
  callers : List.Forall₂ (fun a a' => a.Renamed ρ (a.position + 1) a') s.callers t.callers

/-- True if two calls that were in worlds `w` and `w'` both go on, or both are over, and belong
together still. -/
inductive CallStatus.Renamed (ρ : Renaming) (w w' : World) : CallStatus → CallStatus → Prop
  | running {s t : CallState} {ρ' : Renaming} (matching : World.Matching ρ ρ' w w' s.world t.world)
      (states : s.Renamed ρ' t) : Renamed ρ w w' (.running s) (.running t)
  | returned {result result' : Option Value} {u u' : World} {ρ' : Renaming}
      (matching : World.Matching ρ ρ' w w' u u') (worlds : u.Renamed ρ' u')
      (results : Option.Rel (Value.Renamed ρ') result result') :
      Renamed ρ w w' (.over ⟨.ok result, u⟩) (.over ⟨.ok result', u'⟩)
  | failed {e e' : MachineError} {active active' : List Activation} {u u' : World} {ρ' : Renaming}
      (matching : World.Matching ρ ρ' w w' u u') (worlds : u.Renamed ρ' u')
      (errors : e.Renamed ρ' e') : Renamed ρ w w' (.failed e active u) (.failed e' active' u')

namespace Activation.Renamed

variable {a a' : Activation} {q : Nat}

theorem mono (h : a.Renamed ρ q a') (hρ : ∀ b b', ρ b b' → ρ' b b') : a.Renamed ρ' q a' :=
  ⟨h.owner, h.method, h.position, fun frames g hframes hg => (h.frame frames g hframes hg).mono hρ⟩

/-- Methods that wait go on with results that belong together. -/
theorem resumed (h : a.Renamed ρ (a.position + 1) a') {result result' : Option Value}
    (hr : Option.Rel (Value.Renamed ρ) result result') :
    (CallState.resumed a result).Renamed ρ (a.position + 1) (CallState.resumed a' result') := by
  cases hr with
  | none =>
      refine ⟨h.owner, h.method, congrArg (· + 1) h.position, fun frames g hframes hg => ?_⟩
      exact h.frame frames g hframes hg
  | some hv =>
      refine ⟨h.owner, h.method, congrArg (· + 1) h.position, fun frames g hframes hg => ?_⟩
      have hf := h.frame frames g hframes hg
      exact ⟨hf.locals, .cons hv hf.stack⟩

end Activation.Renamed

/-- Methods start with frames that are the same if their arguments are. -/
theorem ValueFrame.forall₂_entry {args args' : List Value}
    (h : List.Forall₂ (Value.Renamed ρ) args args') (n : Nat) :
    List.Forall₂ (Value.Renamed ρ) (entry args n).locals (entry args' n).locals := by
  have hslots : List.Forall₂ (Value.Renamed ρ)
      (args.flatMap fun v => if v.isWide then [v, .null] else [v])
      (args'.flatMap fun v => if v.isWide then [v, .null] else [v]) := by
    induction h with
    | nil => exact .nil
    | @cons v v' args args' hv _ ih =>
        simp only [List.flatMap_cons, hv.isWide]
        refine forall₂_append ?_ ih
        split
        · exact .cons hv (.cons .null .nil)
        · exact .cons hv .nil
  refine forall₂_append hslots ?_
  rw [hslots.length_eq]
  generalize n - _ = k
  induction k with
  | zero => exact .nil
  | succ k ih => exact .cons .null ih

/-- Going on at a position to which the instruction leads. -/
theorem Activation.Poised.renamed {known : Nat → Prop} {w : World} {a a' : Activation}
    {frames : Frames} {g g' : Frame} {i : Instruction} {f f' : ValueFrame} {p q : Nat}
    (hp : a.Poised known w frames g i g') (h : a.Renamed ρ p a')
    (hq : a.method.body.Leads a.position q) (hf : f.Renamed ρ' g'.locals f') (r : Nat) :
    Activation.Renamed ρ' q ⟨a.owner, a.method, r, f⟩ ⟨a'.owner, a'.method, r, f'⟩ := by
  refine ⟨h.owner, h.method, rfl, fun frames' g'' hframes hg => ?_⟩
  obtain rfl : frames = frames' := Except.ok.inj (hp.analyze.symm.trans hframes)
  obtain ⟨g₂, hg₂, hbelow⟩ := hp.admits q hq
  obtain rfl : g₂ = g'' := Option.some.inj (hg₂.symm.trans hg)
  exact hf.below hbelow.locals

namespace Machine

variable {m : Machine} {w w' : World} {s t : CallState}

/-- Both invocations fail in the same way, get to the same native, or enter the same method. -/
theorem renamed_invoke {args args' : List Value} (h : List.Forall₂ (Value.Renamed ρ) args args')
    (m : Machine) (depth : Nat) (w w' : World) (kind : InvokeKind) (method : MethodRef) :
    (∃ e, m.invoke depth w kind method args = .failed e w ∧
        m.invoke depth w' kind method args' = .failed e w') ∨
      (∃ native, m.native? method = some native ∧ m.invoke depth w kind method args =
          (match native w args with
          | (.ok result, w) => .returned result w
          | (.error cause, w) => .failed cause w) ∧
        m.invoke depth w' kind method args' =
          match native w' args' with
          | (.ok result, w) => .returned result w
          | (.error cause, w) => .failed cause w) ∨
      ∃ d, m.method? method = some d ∧
        m.invoke depth w kind method args =
          .entered ⟨method.owner, d, 0, .entry args d.maxLocals.toNat⟩ ∧
        m.invoke depth w' kind method args' =
          .entered ⟨method.owner, d, 0, .entry args' d.maxLocals.toNat⟩ := by
  have hnull : args'.head?.all Value.isNull = args.head?.all Value.isNull := by
    cases h with
    | nil => rfl
    | cons hv _ => exact hv.isNull
  simp only [invoke, hnull]
  split
  · exact .inl ⟨_, rfl, rfl⟩
  · cases m.native? method with
    | some native => exact .inr (.inl ⟨native, rfl, rfl, rfl⟩)
    | none =>
        cases m.method? method with
        | none => exact .inl ⟨_, rfl, rfl⟩
        | some d =>
            dsimp only
            split
            · exact .inl ⟨_, rfl, rfl⟩
            · split
              · exact .inl ⟨_, rfl, rfl⟩
              · split
                · exact .inl ⟨_, rfl, rfl⟩
                · exact .inr (.inr ⟨d, rfl, rfl, rfl⟩)

/-- A method that's entered on both sides. -/
theorem renamed_entered {args args' : List Value} {method : MethodRef} {d : Method}
    (h : List.Forall₂ (Value.Renamed ρ) args args') :
    Activation.Renamed ρ 0 ⟨method.owner, d, 0, .entry args d.maxLocals.toNat⟩
      ⟨method.owner, d, 0, .entry args' d.maxLocals.toNat⟩ := by
  refine ⟨rfl, rfl, rfl, fun frames g hframes hg => ⟨fun k type htype _ => ?_, .nil⟩⟩
  have hlength : g.locals.length = d.maxLocals.toNat :=
    ((Method.analyzed_of_analyze hframes).wellFormed 0 g hg).localsLength
  have hk := (List.getElem?_eq_some_iff.1 htype).1
  have hentry := ValueFrame.forall₂_entry h d.maxLocals.toNat
  have hroom : k < (ValueFrame.entry args' d.maxLocals.toNat).locals.length := by
    have := Nat.le_max_right
      (args'.flatMap fun v => if v.isWide then [v, .null] else [v]).length d.maxLocals.toNat
    rw [ValueFrame.length_entry]
    omega
  obtain ⟨v, hv, hr⟩ := getElem?_of_forall₂ hentry (List.getElem?_eq_getElem hroom)
  exact ⟨v, _, hv, List.getElem?_eq_getElem hroom, hr⟩

/-- Invocations with arguments that are the same but for addresses, by methods that belong together
where they go on. -/
theorem renamed_follow_call {kind : InvokeKind} {method : MethodRef} {args args' : List Value}
    (hworld : s.world.Renamed ρ t.world)
    (hwaits : s.current.Renamed ρ (s.current.position + 1) t.current)
    (hcallers : List.Forall₂ (fun a a' => a.Renamed ρ (a.position + 1) a') s.callers t.callers)
    (hargs : List.Forall₂ (Value.Renamed ρ) args args')
    (hnative : ∀ native, m.native? method = some native →
      World.Renamed.Answers ρ s.world t.world (native s.world args) (native t.world args')) :
    CallStatus.Renamed ρ s.world t.world (m.follow s (.call kind method args))
      (m.follow t (.call kind method args')) := by
  simp only [follow, ← hcallers.length_eq]
  rcases renamed_invoke hargs m (s.callers.length + 1) s.world t.world kind method with
    ⟨e, hinvoke, hinvoke'⟩ | ⟨native, hn, hinvoke, hinvoke'⟩ | ⟨d, hd, hinvoke, hinvoke'⟩
  · rw [hinvoke, hinvoke']
    exact .failed (.refl ρ _ _) hworld (.same e)
  · obtain ⟨ρ', hmatching, hrenamed, hanswer⟩ := hnative native hn
    rw [hinvoke, hinvoke']
    generalize native s.world args = outcome at hmatching hrenamed hanswer ⊢
    generalize native t.world args' = outcome' at hmatching hrenamed hanswer ⊢
    obtain ⟨answer, u⟩ := outcome
    obtain ⟨answer', u'⟩ := outcome'
    cases hanswer with
    | error errors => exact .failed hmatching hrenamed errors
    | ok results =>
        exact .running hmatching ⟨hrenamed, (hwaits.mono hmatching.mono).resumed results,
          hcallers.imp fun _ _ h => h.mono hmatching.mono⟩
  · rw [hinvoke, hinvoke']
    exact .running (.refl ρ _ _) ⟨hworld, renamed_entered hargs, .cons hwaits hcallers⟩

/-- A step of calls whose states are the same but for addresses. -/
theorem renamed_step (hlimit : m.limits.instructions = none)
    {known known' : Nat → Prop} (hs : s.Typed known) (ht : t.Typed known') (h : s.Renamed ρ t)
    (hnative : ∀ kind method args args' native, s.invocation? = some (kind, method, args) →
      m.native? method = some native → List.Forall₂ (Value.Renamed ρ) args args' →
      World.Renamed.Answers ρ s.world t.world (native s.world args) (native t.world args')) :
    CallStatus.Renamed ρ s.world t.world (m.step s) (m.step t) := by
  obtain ⟨frames, g, i, g', hp⟩ := hs.runs.poised hs.world
  obtain ⟨_, _, _, _, hp'⟩ := ht.runs.poised ht.world
  have hi : t.current.method.body.get? t.current.position = some i := by
    rw [h.current.method, h.current.position]
    exact hp.get?
  have hlocals (k : Nat) (hk : i.local? = some k) :
      k < s.current.frame.locals.length ∧ k < t.current.frame.locals.length := by
    have := hp.local_lt k hk
    rw [hp'.length, h.current.method, ← hp.length]
    exact ⟨this, this⟩
  have hexecute := (h.current.frame frames g hp.analyze hp.frame).execute h.world hp.rule hlocals
  have hforeseen := hp.executes
  simp only [ValueFrame.Executes] at hforeseen
  rw [step_eq_execute hlimit hp.get?, step_eq_execute hlimit hi]
  simp only [step.execute]
  generalize hx : s.current.frame.execute s.world i = x at hexecute hforeseen
  generalize hy : t.current.frame.execute t.world i = y at hexecute
  cases hexecute with
  | error errors => exact .failed (.refl ρ _ _) h.world errors
  | @ok x y results =>
      obtain ⟨flow, f, u⟩ := x
      obtain ⟨flow', f', u'⟩ := y
      obtain ⟨ρ', hmatching, hrenamed, hflow, hf⟩ := results
      obtain ⟨-, -, hforeseen⟩ := hforeseen
      dsimp only at hmatching hrenamed hflow hf hforeseen ⊢
      have hcallers : List.Forall₂ (fun a a' => a.Renamed ρ' (a.position + 1) a') s.callers
          t.callers := h.callers.imp fun _ _ h => h.mono hmatching.mono
      cases hflow with
      | proceed =>
          cases hforeseen with
          | proceed falls =>
              simp only [follow, h.current.position]
              exact .running hmatching
                ⟨hrenamed, hp.renamed h.current (.next hp.get? falls) hf _, hcallers⟩
      | jump target =>
          cases hforeseen with
          | jump listed =>
              obtain ⟨places, hplaces⟩ := hp.analyzed.labels
              obtain ⟨q, hq⟩ := Body.position?_of_mem_targets hplaces hp.get? listed
              simp only [follow, h.current.method, hq]
              have := hp.renamed h.current (.jump hp.get? listed hq) hf q
              rw [h.current.method] at this
              exact .running hmatching ⟨hrenamed, this, hcallers⟩
      | @leave result result' results =>
          simp only [follow, CallState.leave]
          generalize s.callers = callers at hcallers
          generalize t.callers = callers' at hcallers
          cases hcallers with
          | nil => exact .returned hmatching hrenamed results
          | cons hcaller hcallers =>
              exact .running hmatching ⟨hrenamed, hcaller.resumed results, hcallers⟩
      | @call kind method args args' arguments =>
          cases hforeseen with
          | call here fit stack conforms =>
              subst here
              have hinvocation : s.invocation? = some (kind, method, args) := by
                simp [CallState.invocation?, hp.get?, hx]
              obtain rfl : u = s.world := ValueFrame.world_of_invoke hx
              obtain rfl : u' = t.world := ValueFrame.world_of_invoke hy
              -- Popping arguments makes no new pairs.
              have hρ (b b' : Nat) (hb : ρ' b b') : ρ b b' := by
                rcases hmatching.fresh b b' hb with hb | ⟨hle, -⟩
                · exact hb
                · exact absurd (hrenamed.lt_size hb).1 (Nat.not_lt.2 hle)
              have hargs := arguments.imp fun _ _ h => h.mono hρ
              have hwaits : Activation.Renamed ρ (s.current.position + 1)
                  { s.current with frame := f } { t.current with frame := f' } := by
                have := hp.renamed h.current (.next hp.get? rfl) (hf.mono hρ) s.current.position
                exact ⟨h.current.owner, h.current.method, h.current.position, this.frame⟩
              exact renamed_follow_call (s := { s with executed := s.executed + 1, current := _ })
                (t := { t with executed := t.executed + 1, current := _ }) h.world hwaits h.callers
                hargs fun native hn => hnative kind method args args' native hinvocation hn hargs

end Machine

end Resumable
