import Resumable.Proofs.Calls

/-!
# A call with resumable methods in the shadow of the original one

The call with the original methods and the one with resumable methods are in worlds of their own,
for only the second one makes arrays for snapshots.  Between the two stands a call with the original
methods in the second world: it's the first one but for addresses, and the second one mirrors it.
-/

namespace Resumable

/-- True if the first machine has the units of the second one, some of them instrumented, and
natives that can be relied on. -/
structure Machine.Instruments (m m₀ : Machine) (held : Nat → Prop) : Prop where
  made : m.MadeFrom m₀
  assembled : m₀.Assembled
  equipped : m.Equipped
  host : m₀.ReliesOnHost held

/-- True if two calls have ended in the same way. -/
structure Completion.Renamed (ρ : Renaming) (c c' : Completion) : Prop where
  world : c.world.Renamed ρ c'.world
  result : Attempt.Renamed ρ (Option.Rel (Value.Renamed ρ)) (c.result.mapError (·.cause))
    (c'.result.mapError (·.cause))

/-- True if the next step calls no method of the capability's type, hands a capability with one of
the numbers to the method that it enters, if that may suspend, and the native that it calls, if it
calls one, gives what its type promises. -/
structure CallState.Ordinary (m : Machine) (cells : Nat → Prop) (t : CallState) : Prop where
  apart : ∀ kind method args, t.invocation? = some (kind, method, args) →
    method.owner ≠ Capability.typeName
  handsOver : t.HandsOver m cells
  keeps : ∀ kind method args native result u, t.invocation? = some (kind, method, args) →
    m.native? method = some native → native t.world args = (.ok result, u) →
      u.Promised result method.type.returns

/-- True if the second state is that of a call with resumable methods, and the first one that of the
same call with the original methods. -/
inductive CallState.Shadows (m : Machine) (held cells : Nat → Prop) (ρ : Renaming)
    (r s : CallState) : Prop
  | intro {known₀ known : Nat → Prop} {t : CallState} (tame₀ : r.Tame known₀) (tame : t.Tame known)
      (renamed : r.Renamed ρ t) (mirrors : s.Mirrors m cells known t)
      (holds₀ : ∀ a, held a → known₀ a) (holds : ∀ a, held a → known a) (pairs : ∀ a, held a → ρ a a)
      (capabilities : s.world.capabilities = r.world.capabilities)

variable {m m₀ : Machine} {held cells known known' : Nat → Prop} {ρ : Renaming} {r s t : CallState}

namespace Machine.Instruments

variable (hm : m.Instruments m₀ held)

include hm

theorem limit : m₀.limits.instructions = none := hm.made.limits ▸ hm.equipped.unlimited

theorem verified : m₀.Verified := hm.assembled.verified

/-- Natives that aren't the capability's can be relied on. -/
theorem reliable {method : MethodRef} {native : Native} (howner : method.owner ≠ Capability.typeName)
    (hn : m₀.native? method = some native) : Library.Reliable held native := by
  by_cases hlibrary : method.InLibrary
  · obtain ⟨n, hlookup⟩ := Option.isSome_iff_exists.1 hlibrary
    have hn' := hm.equipped.library method n hlookup
    rw [hm.made.native?, hn] at hn'
    obtain rfl := Option.some.inj hn'
    exact Library.reliable_of_lookup hlookup howner
  · exact hm.host method native hn hlibrary

theorem callsDiscreetly (h : r.Ordinary m₀ cells) : m₀.CallsDiscreetly held r := by
  intro kind method args native hcall hn
  refine ⟨(hm.reliable (h.apart kind method args hcall) hn).discreet _ _, fun result hresult => ?_⟩
  exact h.keeps kind method args native result _ hcall hn (Prod.ext hresult rfl)

end Machine.Instruments

/-- A promise is kept on both sides. -/
theorem World.Promised.renamed {w w' : World} {result result' : Option Value}
    {returns : Option ValueType} (h : w.Promised result returns) (hw : w.Renamed ρ w')
    (hr : Option.Rel (Value.Renamed ρ) result result') : w'.Promised result' returns := by
  cases hr with
  | none => cases returns <;> exact h
  | some hv =>
      cases returns with
      | none => exact h
      | some type =>
          simp only [Promised] at h ⊢
          rwa [hw.isInstance hv]

theorem World.Stands.renamed {w w' : World} {n : Nat} {c c' : Value} (h : w.Stands n c)
    (hw : w.Renamed ρ w') (hc : c.Renamed ρ c') : w'.Stands n c' := by
  obtain ⟨a, rfl, ha⟩ := h
  cases hc with
  | @object _ a' pair =>
      obtain ⟨o, ho, hr⟩ := hw.object?_of_pair pair ha
      cases hr
      exact ⟨a', rfl, ho⟩

/-- The capability is at the same place of arguments that belong together. -/
theorem Machine.capabilityArgument?_renamed {kind : InvokeKind} {args args' : List Value} {c : Value}
    (h : List.Forall₂ (Value.Renamed ρ) args args') (hc : capabilityArgument? kind args = some c) :
    ∃ c', capabilityArgument? kind args' = some c' ∧ c.Renamed ρ c' := by
  cases kind with
  | static =>
      cases h with
      | nil => cases hc
      | cons hv _ =>
          cases hc
          exact ⟨_, rfl, hv⟩
  | virtual =>
      cases h with
      | nil => cases hc
      | cons _ h =>
          cases h with
          | nil => cases hc
          | cons hv _ =>
              cases hc
              exact ⟨_, rfl, hv⟩

namespace CallState

/-- What an ordinary step calls is answered in the same way in both worlds. -/
theorem Ordinary.answers (hm : m.Instruments m₀ held) (h : r.Ordinary m₀ cells)
    (hr : r.Renamed ρ t) (hcapabilities : t.world.capabilities = r.world.capabilities)
    (hpairs : ∀ a, held a → ρ a a) {kind : InvokeKind} {method : MethodRef}
    {args args' : List Value} {native : Native} (hcall : r.invocation? = some (kind, method, args))
    (hn : m₀.native? method = some native) (hargs : List.Forall₂ (Value.Renamed ρ) args args') :
    World.Renamed.Answers ρ r.world t.world (native r.world args) (native t.world args') :=
  (hm.reliable (h.apart kind method args hcall) hn).equivariant ρ _ _ args args' hpairs hr.world
    hcapabilities hargs

/-- Steps are ordinary in both worlds. -/
theorem Ordinary.renamed (hm : m.Instruments m₀ held) (h : r.Ordinary m₀ cells)
    (hs : r.Typed known) (ht : t.Typed known') (hr : r.Renamed ρ t)
    (hcapabilities : t.world.capabilities = r.world.capabilities)
    (hpairs : ∀ a, held a → ρ a a) : t.Ordinary m₀ cells := by
  have hcall := hr.invocation? hs ht
  have partner (kind : InvokeKind) (method : MethodRef) (args' : List Value)
      (h : t.invocation? = some (kind, method, args')) :
      ∃ args, r.invocation? = some (kind, method, args) ∧
        List.Forall₂ (Value.Renamed ρ) args args' := by
    rw [h] at hcall
    generalize r.invocation? = x at hcall
    cases hcall with
    | @some x _ hsame =>
        obtain ⟨_, _, args⟩ := x
        obtain ⟨hkind, hmethod, hargs⟩ := hsame
        dsimp only at hkind hmethod
        subst hkind hmethod
        exact ⟨args, rfl, hargs⟩
  refine ⟨fun kind method args' h' => ?_, fun kind method args' a h' hentered heligible => ?_,
    fun kind method args' native result' u' h' hn hanswer => ?_⟩
  · obtain ⟨args, hinvocation, -⟩ := partner kind method args' h'
    exact h.apart kind method args hinvocation
  · obtain ⟨args, hinvocation, hargs⟩ := partner kind method args' h'
    have hentered' : ∃ b, m₀.invoke (r.callers.length + 1) r.world kind method args = .entered b := by
      rw [← hr.callers.length_eq] at hentered
      rcases Machine.renamed_invoke hargs m₀ (r.callers.length + 1) r.world t.world kind method with
        ⟨e, -, hinvoke⟩ | ⟨native, -, -, hinvoke⟩ | ⟨d, -, hinvoke, -⟩
      · rw [hinvoke] at hentered
        cases hentered
      · rw [hinvoke] at hentered
        split at hentered <;> cases hentered
      · exact ⟨_, hinvoke⟩
    obtain ⟨b, hb⟩ := hentered'
    obtain ⟨n, c, hn, hc, hargument⟩ := h.handsOver kind method args b hinvocation hb heligible
    obtain ⟨c', hc', hrenamed⟩ := Machine.capabilityArgument?_renamed hargs hargument
    exact ⟨n, c', hn, hc.renamed hr.world hrenamed, hc'⟩
  · obtain ⟨args, hinvocation, hargs⟩ := partner kind method args' h'
    obtain ⟨ρ', -, hworlds, hresults⟩ := h.answers hm hr hcapabilities hpairs hinvocation hn hargs
    have hkeeps := h.keeps kind method args native
    rw [hanswer] at hworlds hresults
    generalize native r.world args = outcome at hworlds hresults hkeeps
    obtain ⟨answer, u⟩ := outcome
    cases hresults with
    | ok results => exact (hkeeps _ u hinvocation hn rfl).renamed hworlds results

/-- A step with the original methods, and the steps with resumable methods that belong to it.  Both
calls go on, or both are over. -/
inductive Shadows.Continues (m m₀ : Machine) (held cells : Nat → Prop) (ρ : Renaming)
    (r s : CallState) : Prop
  | running {ρ' : Renaming} {r' s' : CallState} {trail : List CallState}
      (next : m₀.step r = .running r') (advances : m.Advances s trail s')
      (mono : ∀ a a', ρ a a' → ρ' a a') (shadows : Shadows m held cells ρ' r' s')
      (evolves : s.world.Evolves s'.world)
      (capabilities : r'.world.capabilities = r.world.capabilities)
      (calls : List.Forall₂ (SameCall ρ') (m₀.hostCalls [r]) (m.hostCalls trail))
  | over {ρ' : Renaming} {c c' : Completion} {trail : List CallState}
      (next : m₀.step r = .over c) (completes : m.Completes (.running s) trail c')
      (mono : ∀ a a', ρ a a' → ρ' a a') (same : c.Renamed ρ' c')
      (capabilities : ∀ result, c.result = .ok result →
        c'.world.capabilities = r.world.capabilities)
      (calls : List.Forall₂ (SameCall ρ') (m₀.hostCalls [r]) (m.hostCalls trail))

/-- The native of the host that a step calls is called in the steps that belong to it, once. -/
theorem Faces.hostCalls (hm : m.Instruments m₀ held) (h : s.Faces m cells known t)
    (hs : r.Typed known') (ht : t.Tame known) (hr : r.Renamed ρ t) {trail : List CallState}
    (hcalm : ∀ u ∈ trail, u.current.Calm) :
    List.Forall₂ (SameCall ρ) (m₀.hostCalls [r]) (m.hostCalls (trail ++ [s])) := by
  have hinvocation := hr.invocation? hs ht.typed
  rw [← h.invocation? ht] at hinvocation
  have hcall := Machine.hostCall?_renamed hm.made.native? hinvocation
  rw [Machine.hostCalls_append, Machine.hostCalls_of_calm hcalm, List.nil_append,
    Machine.hostCalls_cons, Machine.hostCalls_cons]
  generalize m₀.hostCall? r = x at hcall
  generalize m.hostCall? s = y at hcall
  cases hcall with
  | none => exact .nil
  | some hsame => exact .cons hsame .nil

theorem Shadows.step (hm : m.Instruments m₀ held) (h : Shadows m held cells ρ r s)
    (hr : r.Ordinary m₀ cells) : Shadows.Continues m m₀ held cells ρ r s := by
  obtain ⟨tame₀, tame, renamed, mirrors, holds₀, holds, pairs, capabilities⟩ := h
  rename_i known₀ known t
  have hcapabilities : t.world.capabilities = r.world.capabilities :=
    mirrors.world ▸ capabilities
  have hordinary := hr.renamed hm tame₀.typed tame.typed renamed hcapabilities pairs
  obtain ⟨trail, s₁, hadvances, hcalm, hgrows, hfaces, -⟩ :=
    mirrors.arrives hm.equipped tame fun i hi _ => by
      refine Bool.eq_false_iff.2 fun hsuspend => ?_
      obtain rfl := Body.eq_invoke_of_isSuspend hsuspend
      exact hordinary.apart _ _ _ (tame.typed.invocation? hi) rfl
  have hgrows' : t.world.Grows s₁.world := mirrors.world ▸ hgrows
  have tame₁ := tame.extends hgrows'.objects
  have renamed₁ : r.Renamed ρ { t with world := s₁.world } :=
    ⟨renamed.world.extends hgrows'.objects hgrows'.journal, renamed.current, renamed.callers⟩
  have hcapabilities₁ : s₁.world.capabilities = r.world.capabilities :=
    hgrows.capabilities.trans capabilities
  have hordinary₁ := hr.renamed hm tame₀.typed tame₁.typed renamed₁ hcapabilities₁ pairs
  have hcalls := hfaces.hostCalls hm tame₀.typed tame₁ renamed₁ hcalm
  have hstep := Machine.renamed_step hm.limit tame₀.typed tame₁.typed renamed₁
    fun kind method args args' native hcall hn hargs =>
      hr.answers hm renamed₁ hcapabilities₁ pairs hcall hn hargs
  generalize hx : m₀.step r = x at hstep
  generalize hy : m₀.step { t with world := s₁.world } = y at hstep
  cases hstep with
  | @running r' t' ρ' matching states =>
      have hcalls₀ := hm.callsDiscreetly hr
      have hcalls₁ := hm.callsDiscreetly hordinary₁
      have hkept := Machine.capabilities_step hcalls₀ hx
      have hkept' := Machine.capabilities_step hcalls₁ hy
      obtain ⟨known₀', hmono₀, -, tame₀'⟩ :=
        Machine.tame_step hm.verified hm.limit tame₀ holds₀ hcalls₀.confined hx
      obtain ⟨known', hmono, hspares, tame'⟩ :=
        Machine.tame_step hm.verified hm.limit tame₁ holds hcalls₁.confined hy
      obtain ⟨s₂, trail', s', hnext, hadvances', hcalm', hmirrors⟩ :=
        hfaces.step hm.made hm.verified hm.equipped tame₁ hordinary₁.handsOver hy hspares
          fun n _ => by rw [World.cell_congr hkept' n]
      refine .running hx (hadvances.trans (.step hnext hadvances')) matching.mono
        ⟨tame₀', tame', states, hmirrors, fun a ha => hmono₀ a (holds₀ a ha),
          fun a ha => hmono a (holds a ha), fun a ha => matching.mono a a (pairs a ha), ?_⟩ ?_ hkept ?_
      · rw [← hmirrors.world, hkept', hkept, hcapabilities₁]
      · rw [← hmirrors.world]
        exact hgrows.proceeds.evolves.trans hspares.proceeds.evolves
      · rw [List.append_cons, Machine.hostCalls_append, Machine.hostCalls_of_calm hcalm',
          List.append_nil]
        exact hcalls.imp fun _ _ hsame => hsame.mono matching.mono
  | returned matching worlds results =>
      obtain ⟨c', hover, hworld, hresult, hkept⟩ :=
        hfaces.over hm.made hm.equipped tame₁ hy
      refine .over hx (hadvances.completes (.last hover)) matching.mono ⟨?_, ?_⟩
        (fun result _ => ?_) (hcalls.imp fun _ _ hsame => hsame.mono matching.mono)
      · rw [hworld]
        exact worlds
      · rw [hresult]
        exact .ok results
      · rw [hworld, hkept _ rfl]
        exact hcapabilities₁
  | failed matching worlds errors =>
      obtain ⟨c', hover, hworld, hresult, -⟩ :=
        hfaces.over hm.made hm.equipped tame₁ hy
      refine .over hx (hadvances.completes (.last hover)) matching.mono ⟨?_, ?_⟩
        (fun result h => by cases h) (hcalls.imp fun _ _ hsame => hsame.mono matching.mono)
      · rw [hworld]
        exact worlds
      · rw [hresult]
        exact .error errors

/-- Calls of which all steps are ordinary end in the same way, and ask the same of the host. -/
theorem Shadows.completes (hm : m.Instruments m₀ held) {trail : List CallState} {c : Completion}
    (completes : m₀.Completes (.running r) trail c) (h : Shadows m held cells ρ r s)
    (hordinary : ∀ t ∈ trail, t.Ordinary m₀ cells) :
    ∃ ρ' trail' c', m.Completes (.running s) trail' c' ∧ (∀ a a', ρ a a' → ρ' a a') ∧
      c.Renamed ρ' c' ∧ (∀ result, c.result = .ok result →
        c'.world.capabilities = r.world.capabilities) ∧
      List.Forall₂ (SameCall ρ') (m₀.hostCalls trail) (m.hostCalls trail') := by
  generalize hstatus : CallStatus.running r = status at completes
  induction completes generalizing ρ r s with
  | «over» => cases hstatus
  | @step r₀ trail c rest ih =>
      cases hstatus
      rw [List.forall_mem_cons] at hordinary
      cases h.step hm hordinary.1 with
      | @running ρ₁ r₁ s₁ trail₁ next advances mono shadows _ capabilities calls =>
          obtain ⟨ρ₂, trail₂, c₂, hcompletes, hmono, hsame, hcapabilities, hcalls⟩ :=
            ih shadows hordinary.2 next.symm
          refine ⟨ρ₂, _, c₂, advances.completes hcompletes, fun a a' ha => hmono a a' (mono a a' ha),
            hsame, fun result hresult => (hcapabilities result hresult).trans capabilities, ?_⟩
          rw [← List.singleton_append (l := trail), Machine.hostCalls_append,
            Machine.hostCalls_append]
          exact List.rel_append (calls.imp fun _ _ hcall => hcall.mono hmono) hcalls
      | @«over» ρ₁ c₀ c₁ trail₁ next completes mono same capabilities calls =>
          rw [next] at rest
          cases rest
          exact ⟨ρ₁, trail₁, c₁, completes, mono, same, capabilities, calls⟩

/-- Calls of which all steps are ordinary get as far as each other. -/
theorem Shadows.advances (hm : m.Instruments m₀ held) {trail : List CallState} {r' : CallState}
    (advances : m₀.Advances r trail r') (h : Shadows m held cells ρ r s)
    (hordinary : ∀ t ∈ trail, t.Ordinary m₀ cells) :
    ∃ ρ' trail' s', m.Advances s trail' s' ∧ Shadows m held cells ρ' r' s' := by
  induction advances generalizing ρ s with
  | refl => exact ⟨ρ, [], s, .refl s, h⟩
  | step next _ ih =>
      rw [List.forall_mem_cons] at hordinary
      cases h.step hm hordinary.1 with
      | running next' advances _ shadows =>
          obtain rfl := CallStatus.running.inj (next.symm.trans next')
          obtain ⟨ρ', trail', s', hadvances, hshadows⟩ := ih shadows hordinary.2
          exact ⟨ρ', _, s', advances.trans hadvances, hshadows⟩
      | «over» next' =>
          rw [next] at next'
          cases next'

end CallState

end Resumable
