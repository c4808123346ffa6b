import Resumable.Proofs.Replaying
import Resumable.Proofs.Shadows

/-!
# Running until a call suspends itself

While a capability is in normal mode, a call with resumable methods goes on as the original one
does.  It ends like that, or it gets to a place where it suspends itself, and ends with the frames of
all active methods in the capability's states.
-/

namespace Resumable

open CallState Machine

/-- True if the next step, of original code, leaves the capability with the given number alone but
for handing it over, and hands it to every method that it enters and that may suspend. -/
structure CallState.Minds (m : Machine) (held : Nat → Prop) (n : Nat) (s : CallState) : Prop
    extends s.Ordinary m (· = n) where
  host : ∀ kind method args native, s.invocation? = some (kind, method, args) →
    m.native? method = some native → ¬ method.InLibrary →
      s.world.Confined held args (native s.world args) ∧
        (native s.world args).2.capabilities[n]? = s.world.capabilities[n]?

/-- True if original code minds the capability, and all active methods are resumable if the running
one suspends itself. -/
structure CallState.Respects (m m₀ : Machine) (held : Nat → Prop) (n : Nat) (s : CallState) :
    Prop where
  original : s.current.Original m₀ → s.Minds m held n
  suspends : ∀ d frames point, s.current.At m₀ d frames point → point.kind = .suspend →
    ∀ a ∈ s.active, a.method.access.isInstrumented

namespace Machine

variable {m m₀ : Machine} {s t : CallState} {trail trail' : List CallState} {c c' : Completion}
  {status : CallStatus}

/-- A call that ends gets to all states that it advances to. -/
theorem Advances.split (h : m.Advances s trail t) (k : m.Completes (.running s) trail' c) :
    ∃ rest, trail' = trail ++ rest ∧ m.Completes (.running t) rest c := by
  induction h generalizing trail' with
  | refl s => exact ⟨trail', rfl, k⟩
  | step next _ ih =>
      cases k with
      | step rest =>
          rw [next] at rest
          obtain ⟨rest', rfl, hrest⟩ := ih rest
          exact ⟨rest', rfl, hrest⟩

/-- A call that ends starts from the first state that it gets to. -/
theorem Completes.mem_trail (h : m.Completes (.running s) trail c) : s ∈ trail := by
  cases h with
  | step => exact List.mem_cons_self

/-- Methods of which verified ones are made are verified. -/
theorem MadeFrom.verified (h : m.MadeFrom m₀) (hm : m.Verified) : m₀.Verified := by
  intro method d hd hb
  have hrel := h.rel_method? method
  rw [hd] at hrel
  generalize hd' : m.method? method = d'? at hrel
  cases hrel with
  | @some d' _ hcounterpart =>
      rcases hcounterpart with ⟨rfl, -⟩ | ⟨frames, hresumes⟩
      · exact hm method d' hd' hb
      · exact ⟨frames, hresumes.analyze⟩

end Machine

namespace CallState

variable {m m₀ : Machine} {held known : Nat → Prop} {cells : Nat → Prop} {n : Nat}
  {s s' t : CallState}

namespace Minds

/-- Natives that are called are confined, and give what they promise. -/
theorem callsConfined (hm : m.Equipped) (h : s.Minds m held n) : m.CallsConfined held s := by
  intro kind method args native hcall hn
  refine ⟨?_, fun result hresult => h.keeps kind method args native result _ hcall hn
    (Prod.ext hresult rfl)⟩
  by_cases hlibrary : method.InLibrary
  · obtain ⟨native', hlookup⟩ := Option.isSome_iff_exists.1 hlibrary
    obtain rfl := Option.some.inj ((hm.library method native' hlookup).symm.trans hn)
    exact ((Library.reliable_of_lookup hlookup (h.apart kind method args hcall)).discreet _ _).confined
  · exact (h.host kind method args native hcall hn hlibrary).1

/-- The step leaves the capability as it is. -/
theorem capability (hm : m.Equipped) (h : s.Minds m held n) (next : m.step s = .running s') :
    s'.world.capabilities[n]? = s.world.capabilities[n]? := by
  rcases running_cases next with
    hchanges | ⟨kind, method, args, native, result, hcall, hn, hanswer⟩
  · rw [hchanges.capabilities]
  · by_cases hlibrary : method.InLibrary
    · obtain ⟨native', hlookup⟩ := Option.isSome_iff_exists.1 hlibrary
      obtain rfl := Option.some.inj ((hm.library method native' hlookup).symm.trans hn)
      have hdiscreet : s.world.Discreet held args (native' s.world args) :=
        (Library.reliable_of_lookup hlookup (h.apart kind method args hcall)).discreet _ _
      have := hdiscreet.capabilities
      rw [hanswer] at this
      rw [this]
    · have := (h.host kind method args native hcall hn hlibrary).2
      rwa [hanswer] at this

/-- The step moves no state. -/
theorem pop? (h : s.Minds m held n) : s.pop? n = none := by
  cases hcall : s.invocation? with
  | none => simp [CallState.pop?, hcall]
  | some call =>
      obtain ⟨kind, method, args⟩ := call
      rw [CallState.pop?, hcall, Option.bind_some]
      refine if_neg fun hpop => h.apart kind method args hcall ?_
      rw [hpop.1]
      rfl

/-- What's known of steps with resumable methods is known of the same steps with the original ones,
too. -/
theorem faces (hmade : m.MadeFrom m₀) (h : s.Minds m held n) (hfaces : s.Faces m cells known t)
    (ht : t.Tame known) : t.Minds m₀ held n := by
  have hcall := hfaces.invocation? ht
  have hworld := hfaces.world
  have hdepth : t.callers.length = s.callers.length := hfaces.callers.length_eq.symm
  refine ⟨⟨fun kind method args h' => h.apart kind method args (hcall ▸ h'),
    fun kind method args a h' hentered heligible => ?_,
    fun kind method args native result u h' hn hanswer => ?_⟩,
    fun kind method args native h' hn hlibrary => ?_⟩
  · rw [hworld, hdepth] at hentered
    rw [hworld]
    obtain ⟨b, hb⟩ : ∃ b, m.invoke (s.callers.length + 1) s.world kind method args = .entered b := by
      rcases hmade.invoke_cases (s.callers.length + 1) s.world kind method args with
        ⟨e, hinvoke₀, -⟩ | ⟨native, -, -, hinvoke₀⟩ | ⟨d, d', -, -, -, -, -, hinvoke⟩
      · rw [hinvoke₀] at hentered
        cases hentered
      · rw [hinvoke₀] at hentered
        split at hentered <;> cases hentered
      · exact ⟨_, (hinvoke _).2⟩
    exact h.handsOver kind method args b (hcall ▸ h') hb heligible
  · rw [hworld] at hanswer
    exact h.keeps kind method args native result u (hcall ▸ h') (hmade.native? method ▸ hn) hanswer
  · rw [hworld]
    exact h.host kind method args native (hcall ▸ h') (hmade.native? method ▸ hn) hlibrary

end Minds

/-- A resumable method that has got to an instruction that stays is at original code. -/
theorem Faces.original (h : s.Faces m cells known t) (ht : t.Tame known) (hloaded : t.Loaded m₀) :
    s.current.Original m₀ := by
  obtain ⟨frames, g, i, g', hp⟩ := ht.typed.runs.poised ht.typed.world
  have hcurrent := h.current
  have hfound := hloaded t.current List.mem_cons_self
  generalize s.current = a at hcurrent
  generalize t.current = a₀ at hcurrent hp hfound
  cases hcurrent with
  | plain h => exact .inl h
  | @resumable frames' _ _ _ _ _ _ carries position records =>
      refine .inr ⟨a₀.method, frames', a₀.position, i, ⟨?_, carries.owner ▸ carries.resumes⟩, hp.get?,
        fun point proceed hsite hsuspend => ?_, position⟩
      · rw [carries.owner, carries.resumes.name, carries.resumes.type]
        exact hfound
      · rw [(records point proceed hsite).1] at hsuspend
        cases hsuspend

/-- A resumable method that's at the block of an instruction with which it suspends itself is at a
point. -/
theorem Mirrors.at_suspend (h : s.Mirrors m cells known t) (ht : t.Tame known)
    (hloaded : t.Loaded m₀) (hi : t.current.method.body.get? t.current.position =
      some (.invoke .virtual Capability.suspend)) (hs : s.current.method.access.isInstrumented) :
    ∃ frames point, s.current.At m₀ t.current.method frames point ∧ point.kind = .suspend := by
  obtain ⟨frames, g, i, g', hp⟩ := ht.typed.runs.poised ht.typed.world
  obtain rfl := Option.some.inj (hi.symm.trans hp.get?)
  have hcurrent := h.current
  have hfound := hloaded t.current List.mem_cons_self
  generalize s.current = a at hcurrent hs
  generalize t.current = a₀ at hcurrent hp hfound
  cases hcurrent with
  | plain h =>
      rw [h] at hs
      cases hs
  | @resumable frames' _ _ _ _ _ _ carries position =>
      obtain rfl : frames' = frames :=
        Except.ok.inj (carries.resumes.analyze.symm.trans hp.analyze)
      obtain ⟨point, -, hmem, -, hhere, -, hsuspend, hnew⟩ :=
        Method.exists_suspend hp.frame hp.get?
      exact ⟨frames', point, carries.at_ hfound hmem (by rw [position, hhere, hnew]), hsuspend⟩

theorem Renamed.loaded {ρ : Renaming} {r : CallState} (h : r.Renamed ρ t) (hr : r.Loaded m₀) :
    t.Loaded m₀ := by
  obtain ⟨hcurrent, hcallers⟩ := List.forall_mem_cons.1 hr
  refine List.forall_mem_cons.2
    ⟨hcurrent.congr ⟨h.current.owner, h.current.method⟩, fun b hb => ?_⟩
  obtain ⟨a, ha, hab⟩ := exists_mem_of_forall₂ h.callers.flip hb
  exact (hcallers a ha).congr ⟨hab.owner, hab.method⟩

/-- A call suspends itself where the call with the original methods does. -/
theorem Shadows.suspends {ρ : Renaming} {r : CallState} (hm : m.Instruments m₀ held)
    (h : Shadows m held (· = n) ρ r s) (hloaded : r.Loaded m₀)
    (hi : r.current.method.body.get? r.current.position = some (.invoke .virtual Capability.suspend))
    (hactive : ∀ a ∈ s.active, a.method.access.isInstrumented)
    (hn : r.world.capabilities[n]? = some .initial) :
    ∃ trail result u states, m.Completes (.running s) trail ⟨.ok result, u⟩ ∧
      u.cell n = ⟨Capability.saving, states⟩ := by
  obtain ⟨-, tame, renamed, mirrors, -, -, -, capabilities⟩ := h
  rw [← renamed.current.method, ← renamed.current.position] at hi
  obtain ⟨trail, result, u, states, hcompletes, -, -, -, hcell, -⟩ :=
    mirrors.suspends hm.equipped tame (renamed.loaded hloaded) hi hactive
      (capabilities ▸ (Array.getElem?_eq_some_iff.1 hn).1)
  exact ⟨trail, result, u, _, hcompletes, hcell⟩

end CallState

/-- How a call ends that starts with the capability in normal mode: in a way that leaves it so, or
with the frames of the methods that were active when it suspended itself in the capability's
states. -/
inductive Machine.Ends (m m₀ : Machine) (kept : Nat → Prop) (n : Nat) (w : World)
    (trail : List CallState) (c : Completion) : Prop
  | finishes (retains : pops n trail = [])
      (cell : ∀ result, c.result = .ok result → c.world.cell n = .initial)
  | suspends {before after : List CallState} {s t : CallState} {known : Nat → Prop}
      {states : List Nat} (retains : pops n trail = []) (parts : trail = before ++ s :: after)
      (added : ∀ u ∈ s :: after, u.current.Added)
      (pushes : pushes n (s :: after) = shifts s.active states)
      (result : ∃ result, c.result = .ok result)
      (cell : c.world.cell n = ⟨Capability.saving, states.reverse⟩)
      (asleep : s.Asleep m m₀ n known c.world t states)
      (tame : CallState.Tame known { t.awake with world := c.world }) (loaded : t.Loaded m₀)
      (keeps : ∀ a, kept a → known a) (evolves : w.Evolves c.world)

namespace Machine

variable {m m₀ : Machine} {held kept known : Nat → Prop} {n : Nat} {s s' t : CallState}
  {trail trail' : List CallState} {c : Completion}

theorem Ends.prepend {w u : World} (h : m.Ends m₀ kept n u trail c) (hretains : pops n trail' = [])
    (hevolves : w.Evolves u) : m.Ends m₀ kept n w (trail' ++ trail) c := by
  cases h with
  | finishes retains cell => exact .finishes (by rw [pops_append, hretains, retains]; rfl) cell
  | @suspends before after s _ _ _ retains parts added pushes result cell asleep tame loaded keeps
      evolves =>
      have hparts : trail' ++ trail = (trail' ++ before) ++ s :: after := by
        rw [parts, List.append_assoc]
      exact .suspends (by rw [pops_append, hretains, retains]; rfl) hparts added pushes result cell
        asleep tame loaded keeps (hevolves.trans evolves)

theorem cell_of_getElem? {w : World} {cell : CapabilityCell} (h : w.capabilities[n]? = some cell) :
    w.cell n = cell := by
  rw [World.cell, Array.getD_eq_getD_getElem?, h, Option.getD_some]

/-- The end of a call that's about to suspend itself. -/
theorem ends_suspending (hm : m.Equipped) (h : s.Mirrors m (· = n) known t) (ht : t.Tame known)
    (hloaded : t.Loaded m₀) (keeps : ∀ a, kept a → known a)
    (hcell : s.world.capabilities[n]? = some .initial)
    (hi : t.current.method.body.get? t.current.position =
      some (.invoke .virtual Capability.suspend)) (hs : s.current.method.access.isInstrumented)
    (hrespects : s.Respects m m₀ held n) (completes : m.Completes (.running s) trail c) :
    m.Ends m₀ kept n s.world trail c := by
  obtain ⟨after, rfl⟩ : ∃ after, trail = s :: after := by
    cases completes with
    | step rest => exact ⟨_, rfl⟩
  obtain ⟨frames, point, hat, hkind⟩ := h.at_suspend ht hloaded hi hs
  obtain ⟨trail', result, u, states, hcompletes, hcalm, hpushes, hgrows, hcell', hasleep⟩ :=
    h.suspends hm ht hloaded hi (hrespects.suspends _ frames point hat hkind)
      (Array.getElem?_eq_some_iff.1 hcell).1
  obtain ⟨rfl, rfl⟩ := hcompletes.unique completes
  rw [cell_of_getElem? hcell] at hcell'
  have hworld := h.world
  have hparts : s :: after = [] ++ s :: after := rfl
  refine .suspends (pops_of_calm hcalm) hparts (fun v hv => (hcalm v hv).added)
    hpushes ⟨result, rfl⟩ ?_ hasleep ((ht.awake hi).extends ?_) hloaded keeps
    hgrows.objects.proceeds.evolves
  · rw [hcell']
    simp [CapabilityCell.initial]
  · exact fun a o ho => hgrows.objects a o (hworld ▸ ho)

/-- The last step of a call, if it's the last one with the original methods. -/
theorem ends_over (hmade : m.MadeFrom m₀) (hm : m.Equipped) (h : s.Faces m (· = n) known t)
    (ht : t.Tame known) (hcell : s.world.capabilities[n]? = some .initial) {c₀ : Completion}
    (hover : m₀.step t = .over c₀) (completes : m.Completes (.running s) trail c) :
    trail = [s] ∧ ∀ result, c.result = .ok result → c.world.cell n = .initial := by
  obtain ⟨c', hstep, hworld, hresult, hkept⟩ := h.over hmade hm ht hover
  obtain ⟨htrail, rfl⟩ := (Completes.last hstep).unique completes
  refine ⟨htrail, fun result hok => cell_of_getElem? ?_⟩
  have hok₀ : c₀.result = .ok result := by
    rw [hok] at hresult
    cases hc : c₀.result with
    | ok result' =>
        rw [hc] at hresult
        exact congrArg _ (Except.ok.inj hresult).symm
    | error e =>
        rw [hc] at hresult
        cases hresult
  rw [hworld, hkept result hok₀, h.world]
  exact hcell

/-- A step that's followed with the original methods gets to the next block, where all is as it was
before. -/
theorem mirrors_next (hmade : m.MadeFrom m₀) (hm : m.Equipped) (hverified : m₀.Verified)
    (h : s.Faces m (· = n) known t) (ht : t.Tame known) (holds : ∀ a, held a → known a)
    (hcell : s.world.capabilities[n]? = some .initial) (hminds : t.Minds m₀ held n)
    (next : m₀.step t = .running t') :
    ∃ known' trail s', m.Advances s (s :: trail) s' ∧ (∀ u ∈ trail, u.current.Calm) ∧
      (∀ a, known a → known' a) ∧ s'.Mirrors m (· = n) known' t' ∧ t'.Tame known' ∧
      s'.world.capabilities[n]? = some .initial ∧ s.world.Evolves s'.world := by
  have hm₀ : m₀.Equipped := ⟨hmade.limits ▸ hm.unlimited, fun method native hlookup =>
    hmade.native? method ▸ hm.library method native hlookup⟩
  obtain ⟨known', hmono, hspares, ht'⟩ := tame_step hverified hm₀.unlimited ht holds
    (hminds.callsConfined hm₀) next
  have hcell₀ : t.world.capabilities[n]? = some .initial := h.world ▸ hcell
  have hcell' : t'.world.capabilities[n]? = some .initial :=
    (hminds.capability hm₀ next).trans hcell₀
  have hmodes (k : Nat) (hk : k = n) : (t'.world.cell k).mode = (t.world.cell k).mode := by
    rw [hk, cell_of_getElem? hcell', cell_of_getElem? hcell₀]
  obtain ⟨s₁, trail, s', hnext, hadvances, hcalm, hmirrors⟩ :=
    h.step hmade hverified hm ht hminds.handsOver next hspares hmodes
  refine ⟨known', trail, s', hadvances.step hnext, hcalm, hmono, hmirrors, ht',
    hmirrors.world ▸ hcell', ?_⟩
  rw [← hmirrors.world, ← h.world]
  exact hspares.proceeds.evolves

/-- A call with the capability in normal mode ends in one of these ways. -/
theorem ends (hmade : m.MadeFrom m₀) (hm : m.Equipped) (hverified : m₀.Verified)
    (h : s.Mirrors m (· = n) known t) (ht : t.Tame known) (hloaded : t.Loaded m₀)
    (holds : ∀ a, held a → known a) (keeps : ∀ a, kept a → known a)
    (hcell : s.world.capabilities[n]? = some .initial)
    (completes : m.Completes (.running s) trail c)
    (hrespects : ∀ u ∈ trail, u.Respects m m₀ held n) :
    m.Ends m₀ kept n s.world trail c := by
  induction hlength : trail.length using Nat.strongRecOn generalizing s t known trail with
  | ind k ih =>
      by_cases hsuspend : t.current.method.body.get? t.current.position =
          some (.invoke .virtual Capability.suspend) ∧ s.current.method.access.isInstrumented
      · exact ends_suspending hm h ht hloaded keeps hcell hsuspend.1 hsuspend.2
          (hrespects s completes.mem_trail) completes
      · obtain ⟨trail₁, s₁, hadvances₁, hcalm₁, hgrows, hfaces, -⟩ :=
          h.arrives hm ht fun i hi hs => by
            refine Bool.eq_false_iff.2 fun hi' => hsuspend ⟨?_, hs⟩
            rw [hi, Body.eq_invoke_of_isSuspend hi']
        obtain ⟨rest₁, rfl, hrest₁⟩ := hadvances₁.split completes
        have hworld := h.world
        have ht₁ := ht.extends (u := s₁.world) fun a o ho => hgrows.objects a o (hworld ▸ ho)
        have hloaded₁ : CallState.Loaded m₀ { t with world := s₁.world } := hloaded
        have hminds := (hrespects s₁ (List.mem_append_right _ hrest₁.mem_trail)).original
          (hfaces.original ht₁ hloaded₁)
        have hcell₁ : s₁.world.capabilities[n]? = some .initial := by rw [hgrows.capabilities, hcell]
        have hretains : pops n (trail₁ ++ [s₁]) = [] := by
          rw [pops_append, pops_of_calm hcalm₁]
          simp [pops, hminds.pop?]
        cases hx : m₀.step { t with world := s₁.world } with
        | «over» c₀ =>
            obtain ⟨rfl, hend⟩ := ends_over hmade hm hfaces ht₁ hcell₁ hx hrest₁
            exact .finishes hretains hend
        | running t' =>
            obtain ⟨known', trail₂, s', hadvances₂, hcalm₂, hmono, hmirrors, ht', hcell', hevolves⟩ :=
              mirrors_next hmade hm hverified hfaces ht₁ holds hcell₁
                (hminds.faces hmade hfaces ht₁) hx
            obtain ⟨rest, rfl, hrest⟩ := hadvances₂.split hrest₁
            have hlater := ih rest.length (by simp at hlength; omega) hmirrors ht'
              (loaded_step hloaded₁ hx) (fun a ha => hmono a (holds a ha))
              (fun a ha => hmono a (keeps a ha)) hcell' hrest
              (fun u hu => hrespects u (by simp [hu])) rfl
            rw [← List.append_assoc]
            refine hlater.prepend ?_ (hgrows.proceeds.evolves.trans hevolves)
            rw [List.append_cons, pops_append, hretains, pops_of_calm hcalm₂]
            rfl

end Machine

end Resumable
