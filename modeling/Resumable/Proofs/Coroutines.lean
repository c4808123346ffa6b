import Resumable.Machine.Coroutine
import Resumable.Proofs.Starts
import Resumable.Proofs.Suspensions

/-!
# Coroutines from one suspension to the next

Resuming a coroutine calls its method, with an object that stands for its capability.  A coroutine
that has suspended itself has the frames of all methods that were active then in the states of its
capability.  What happens in the meantime doesn't matter, as long as it leaves the capability alone,
and all objects of which the coroutine's methods don't know.  So the next call takes all states
back, and gets to the place where the coroutine has suspended itself.
-/

namespace Resumable

open CallState Machine

namespace World

variable {w u : World} {n : Nat}

theorem getElem?_of_cell {cell : CapabilityCell} (hn : n < w.capabilities.size)
    (h : w.cell n = cell) : w.capabilities[n]? = some cell := by
  rw [← h, World.cell, Array.getD_eq_getD_getElem?, Array.getElem?_eq_getElem hn, Option.getD_some]

/-- A new capability changes nothing of what is known. -/
theorem Offers.newCapability {held known : Nat → Prop} {args : List Value}
    (h : w.Offers held known args) : w.newCapability.2.Offers held known args := by
  have hevolves : w.Evolves w.newCapability.2 := .refl w
  refine ⟨⟨h.tidy.closed, fun a element values ha ho v hv => ?_⟩, h.held, h.args⟩
  exact hevolves.isInstance (h.tidy.elements a element values ha ho v hv)

/-- True if the second world may come of the first one between two calls: the host gets at what it
holds only, and leaves the capability with the given number alone. -/
structure Interlude (held : Nat → Prop) (n : Nat) (w w' : World) : Prop where
  confined : w.Confined held [] (.ok none, w')
  capability : w'.capabilities[n]? = w.capabilities[n]?

end World

namespace CallState

variable {m m₀ : Machine} {n : Nat} {known known' : Nat → Prop} {w u : World} {s t : CallState}
  {states : List Nat}

theorem Asleep.spares (h : s.Asleep m m₀ n known w t states) (hw : World.Spares known known' w u) :
    s.Asleep m m₀ n known' u t states := by
  obtain ⟨rests, suspend, parked⟩ := h
  exact ⟨rests.spares hw, suspend, parked.spares hw⟩

theorem Parked.marked {owner : String} {callee : Method} {callers callers₀ : List Activation}
    (h : Parked m m₀ n known w owner callee callers callers₀ states) :
    ∀ a ∈ callers, a.method.access.isInstrumented := by
  induction h with
  | nil => simp
  | cons parks _ ih => exact List.forall_mem_cons.2 ⟨parks.marked, ih⟩

/-- All methods that were active are resumable. -/
theorem Asleep.marked (h : s.Asleep m m₀ n known w t states) :
    ∀ a ∈ s.active, a.method.access.isInstrumented := by
  obtain ⟨rests, -, parked⟩ := h
  exact List.forall_mem_cons.2 ⟨rests.at_.made.resumes.marked, parked.marked⟩

/-- A call that suspends itself has at least one frame. -/
theorem Asleep.states_ne_nil (h : s.Asleep m m₀ n known w t states) : states ≠ [] := by
  obtain ⟨-, -, -⟩ := h
  exact List.cons_ne_nil _ _

end CallState

/-- A resumable method that's entered with fitting arguments finds the capability in its slot. -/
theorem Machine.MadeFrom.accepts {m m₀ : Machine} (hmade : m.MadeFrom m₀) (hverified : m₀.Verified)
    {w : World} {n : Nat} {owner name : String} {type : MethodType} {d' : Method}
    {args : List Value} {v : Value} (hd' : m.method? ⟨owner, name, type⟩ = some d')
    (hmarked : d'.access.isInstrumented)
    (hfits : List.Forall₂ (fun v t => w.isInstance v t) args
      (argumentTypes ⟨owner, name, type⟩ (startKind d'))) (hc : w.Stands n v)
    (hargument : type.isEligible → capabilityArgument? (startKind d') args = some v) :
    d'.Accepts n w args v := by
  have hrel := hmade.rel_method? ⟨owner, name, type⟩
  rw [hd'] at hrel
  generalize hd : m₀.method? ⟨owner, name, type⟩ = d? at hrel
  cases hrel with
  | @some _ d hcounterpart =>
      have hkind : startKind d' = startKind d := by simp only [startKind, hcounterpart.isStatic]
      obtain ⟨frames, resumes⟩ := hcounterpart.resumes hmarked
      obtain ⟨-, -, -, -, -, htype⟩ := method?_eq_some hd
      refine ⟨?room, hc, ?slot⟩
      case room =>
        exact resumes.room_entry (length_entry_of_fits hverified hd resumes.hasBody (hkind ▸ hfits))
      case slot =>
        have heligible : type.isEligible := by
          have := resumes.eligible
          rwa [htype] at this
        exact ValueFrame.capability_entry startKind_eq_static hfits (hargument heligible) _

namespace Coroutine

/-- The world with the mode that resuming sets. -/
def loading (c : Coroutine) (w : World) : World :=
  if c.state = .suspended then
    w.modifyCell c.cell fun cell => { cell with mode := Capability.loading }
  else w

/-- The world in which resuming calls the method, with a new object for the capability. -/
def calling (c : Coroutine) (w : World) : World :=
  ((c.loading w).allocate (.capability c.cell)).2

/-- The call that resuming makes. -/
def start (c : Coroutine) (m : Machine) (w : World) : CallStatus :=
  m.start (c.calling w) c.owner c.name c.descriptor (c.callArguments m (.object w.objects.size))

/-- True if resuming comes to the resumption, by a call that goes through the states of the
trail. -/
inductive Goes (c : Coroutine) (m : Machine) (w : World) (trail : List CallState) :
    Resumption → Prop
  | intro {completion : Completion} (unfinished : c.state ≠ .finished)
      (completes : m.Completes (c.start m w) trail completion) :
      Goes c m w trail (c.settle completion)

/-- True if nothing but the methods' own code touches the capability on the way through the trail,
and neither does a native that's called at once. -/
structure Undisturbed (c : Coroutine) (m m₀ : Machine) (held : Nat → Prop) (w : World)
    (trail : List CallState) : Prop where
  respects : ∀ s ∈ trail, s.Respects m m₀ held c.cell
  atOnce : ∀ completion, c.start m w = .over completion →
    completion.world.cell c.cell = (c.calling w).cell c.cell

/-- True if the coroutine has come to where it is, in the world, by being resumed again and again,
and nothing else has touched its capability. -/
inductive Course (m m₀ : Machine) (held : Nat → Prop) : Coroutine → World → Prop
  | create {known : Nat → Prop} {w : World} {args : List Value} (owner name descriptor : String)
      (offers : w.Offers held known args) :
      Course m m₀ held (create w owner name descriptor args).1
        (create w owner name descriptor args).2
  | resume {c : Coroutine} {w : World} {trail : List CallState} {r : Resumption}
      (course : Course m m₀ held c w) (goes : c.Goes m w trail r)
      (undisturbed : c.Undisturbed m m₀ held w trail) : Course m m₀ held r.coroutine r.world
  | interlude {c : Coroutine} {w w' : World} (course : Course m m₀ held c w)
      (between : w.Interlude held c.cell w') : Course m m₀ held c w'

variable {m m₀ : Machine} {held known : Nat → Prop} {c : Coroutine} {w u : World}
  {trail : List CallState} {r : Resumption}

theorem size_loading (c : Coroutine) (w : World) : (c.loading w).objects.size = w.objects.size := by
  unfold loading
  split <;> rfl

/-- Resuming makes such a call. -/
theorem exists_goes (unfinished : c.state ≠ .finished) :
    (∃ trail, c.Goes m w trail r) ↔ ∃ fuel, c.resume m fuel w = some r := by
  have hresume (fuel : Nat) :
      c.resume m fuel w = (m.run fuel (c.start m w)).map c.settle := by
    unfold resume
    rw [if_neg unfinished, start, ← size_loading c w]
    rfl
  constructor
  · rintro ⟨trail, ⟨-, completes⟩⟩
    obtain ⟨fuel, hrun⟩ := completes_iff_run.1 ⟨trail, completes⟩
    exact ⟨fuel, by rw [hresume, hrun, Option.map_some]⟩
  · rintro ⟨fuel, h⟩
    rw [hresume] at h
    obtain ⟨completion, hrun, rfl⟩ := Option.map_eq_some_iff.1 h
    obtain ⟨trail, completes⟩ := completes_iff_run.2 ⟨fuel, hrun⟩
    exact ⟨trail, .intro unfinished completes⟩

/-- Nothing changes until the call starts but the capability, and there's a new object for it. -/
theorem growsBut_calling (c : Coroutine) (w : World) :
    World.GrowsBut c.cell w (c.calling w) := by
  have hloading : World.GrowsBut c.cell w (c.loading w) := by
    unfold loading
    split
    · exact .modifyCell w c.cell _
    · exact .refl c.cell w
  exact hloading.trans ((World.Grows.allocate (c.loading w) _).growsBut _)

theorem extends_calling (c : Coroutine) (w : World) : w.Extends (c.calling w) :=
  (c.growsBut_calling w).objects

theorem object?_calling (c : Coroutine) (w : World) :
    (c.calling w).object? w.objects.size = some (.capability c.cell) := by
  rw [calling, World.object?_allocate, size_loading, if_pos rfl]

theorem capabilities_calling (c : Coroutine) (w : World) :
    (c.calling w).capabilities = (c.loading w).capabilities := rfl

theorem mem_callArguments {capability v : Value} (h : v ∈ c.callArguments m capability) :
    v = capability ∨ v ∈ c.args := by
  unfold callArguments at h
  cases hargs : c.args with
  | nil =>
      rw [hargs] at h
      exact .inl (List.mem_singleton.1 h)
  | cons receiver args =>
      rw [hargs] at h
      dsimp only at h
      split at h <;> simp only [List.mem_cons] at h ⊢ <;> tauto

/-- What is known when the call starts is what was known before, and the new object. -/
theorem offers_calling (h : w.Offers held known c.args) :
    (c.calling w).Offers held (fun a => known a ∨ a = w.objects.size)
      (c.callArguments m (.object w.objects.size)) := by
  have hextends := c.extends_calling w
  have hclosed := h.tidy.closed
  refine ⟨⟨?closed, ?elements⟩, fun a ha => .inl (h.held a ha), ?args⟩
  case closed =>
    rintro a (ha | rfl)
    · obtain ⟨o, ho, hparts⟩ := hclosed a ha
      exact ⟨o, hextends a o ho, fun v hv => (hparts v hv).mono fun b hb => .inl hb⟩
    · exact ⟨_, c.object?_calling w, by simp [Object.parts]⟩
  case elements =>
    rintro a element values (ha | rfl) ho v hv
    · obtain ⟨o, ho', -⟩ := hclosed a ha
      obtain rfl := Option.some.inj ((hextends a o ho').symm.trans ho)
      exact hextends.proceeds.evolves.isInstance (h.tidy.elements a element values ha ho' v hv)
    · rw [c.object?_calling w] at ho
      cases ho
  case args =>
    intro v hv
    rcases mem_callArguments hv with rfl | hv
    · exact .inr rfl
    · exact (h.args v hv).mono fun a ha => .inl ha

/-- Objects that stand for capabilities can stand in for each other as arguments. -/
theorem replaces_callArguments (hw : w.Evolves u) {a b k n : Nat}
    (ha : w.object? a = some (.capability n)) (hb : u.object? b = some (.capability k)) :
    List.Forall₂ (Replaces w u) (c.callArguments m (.object a)) (c.callArguments m (.object b)) := by
  have hcapability : Replaces w u (.object a) (.object b) := by
    refine ⟨fun type h => ?_, rfl⟩
    rw [World.isInstance_object, World.typeOf, ha] at h
    rw [World.isInstance_object, World.typeOf, hb]
    exact h
  have hsame (args : List Value) : List.Forall₂ (Replaces w u) args args :=
    List.forall₂_same.2 fun v _ => ⟨fun type h => hw.isInstance h, rfl⟩
  have hself (v : Value) : Replaces w u v v := ⟨fun type h => hw.isInstance h, rfl⟩
  unfold callArguments
  cases c.args with
  | nil => exact .cons hcapability .nil
  | cons receiver args =>
      dsimp only
      split
      · exact .cons (hself receiver) (.cons hcapability (hsame args))
      · exact .cons hcapability (.cons (hself receiver) (hsame args))

/-- The capability is handed over to a method that may suspend. -/
theorem capabilityArgument?_callArguments {type : MethodType} {d : Method} {v : Value}
    (hparse : MethodType.parse c.descriptor = .ok type)
    (hd : m.method? ⟨c.owner, c.name, type⟩ = some d) (heligible : type.isEligible)
    (hfits : List.Forall₂ (fun v t => w.isInstance v t) (c.callArguments m v)
      (argumentTypes ⟨c.owner, c.name, type⟩ (startKind d))) :
    capabilityArgument? (startKind d) (c.callArguments m v) = some v := by
  have hinstance : c.isInstanceMethod m = !d.isStatic := by
    simp only [isInstanceMethod, hparse, hd, Option.any_some]
  unfold callArguments at hfits ⊢
  cases hstatic : d.isStatic with
  | true =>
      have hkind : startKind d = .static := by simp [startKind, hstatic]
      rw [hkind]
      rw [hstatic] at hinstance
      cases c.args with
      | nil => rfl
      | cons receiver args =>
          dsimp only
          rw [hinstance]
          rfl
  | false =>
      have hkind : startKind d = .virtual := by simp [startKind, hstatic]
      rw [hkind] at hfits ⊢
      rw [hstatic] at hinstance
      cases hargs : c.args with
      | nil =>
          -- The capability would be the receiver, and there would be nothing for the parameter.
          rw [hargs] at hfits
          obtain _ | ⟨-, htypes⟩ := hfits
          cases hparams : type.params with
          | nil => simp [MethodType.isEligible, hparams] at heligible
          | cons p params =>
              rw [hparams] at htypes
              cases htypes
      | cons receiver args =>
          dsimp only
          rw [hinstance]
          rfl

/-- True if the coroutine has suspended itself in the given state of its call, and the frames of all
methods that were active then are in the given states. -/
structure Dormant (m m₀ : Machine) (held known : Nat → Prop) (c : Coroutine) (w : World)
    (s t : CallState) (states : List Nat) : Prop where
  state : c.state = .suspended
  offers : w.Offers held known c.args
  cell : w.cell c.cell = ⟨Capability.saving, states.reverse⟩
  asleep : s.Asleep m m₀ c.cell known w t states
  tame : CallState.Tame known { t.awake with world := w }
  loaded : t.Loaded m₀
  started : ∃ w₀ a s₀, w₀.object? a = some (.capability c.cell) ∧ w₀.Evolves w ∧
    m.start w₀ c.owner c.name c.descriptor (c.callArguments m (.object a)) = .running s₀ ∧
    s.root.SameMethod s₀.current

namespace Dormant

variable {s t : CallState} {states : List Nat}

/-- Nothing changes between two calls. -/
theorem interlude (h : c.Dormant m m₀ held known w s t states) (hw : w.Interlude held c.cell u) :
    c.Dormant m m₀ held (w.KnownSince known u) u s t states := by
  have hoffers : w.Offers held known [] := ⟨h.offers.tidy, h.offers.held, by simp⟩
  have hspares : World.Spares known (w.KnownSince known u) w u := hw.confined.spares known hoffers
  have htidy : u.Tidy (w.KnownSince known u) := hw.confined.tidy known hoffers
  have hknown (a : Nat) (ha : known a) : w.KnownSince known u a := .inl ha
  obtain ⟨w₀, a, s₀, ha, hevolves, hstart, hroot⟩ := h.started
  refine ⟨h.state, ⟨htidy, fun a ha => .inl (h.offers.held a ha),
    fun v hv => (h.offers.args v hv).mono hknown⟩, ?cell,
    h.asleep.spares hspares, h.tame.within hknown hspares.proceeds.evolves htidy, h.loaded, w₀, a, s₀,
    ha, hevolves.trans hspares.proceeds.evolves, hstart, hroot⟩
  rw [← h.cell, World.cell, World.cell, Array.getD_eq_getD_getElem?, Array.getD_eq_getD_getElem?,
    hw.capability]

/-- The next call takes all states back, and gets to where the coroutine has suspended itself. -/
theorem replays (hm : m.Equipped) (hmade : m.MadeFrom m₀) (hverified : m₀.Verified)
    (h : c.Dormant m m₀ held known w s t states) :
    ∃ s₀ early late s' t', c.start m w = .running s₀ ∧
      s.Reawakens m m₀ c.cell (fun a => known a ∨ a = w.objects.size) t states s₀ early late s' t' ∧
      s'.world.capabilities[c.cell]? = some .initial ∧
      t'.Tame (fun a => known a ∨ a = w.objects.size) ∧ t'.Loaded m₀ := by
  obtain ⟨w₀, a, s₀, ha, hevolves, hstart, hroot⟩ := h.started
  have hextends := c.extends_calling w
  have hknown (a : Nat) (ha : known a) : known a ∨ a = w.objects.size := .inl ha
  have hspares : World.Spares known (fun a => known a ∨ a = w.objects.size) w (c.calling w) :=
    ⟨fun a ha => ha.imp_right fun ha => Nat.le_of_eq ha.symm, fun a o _ ho => hextends a o ho,
      hextends.proceeds⟩
  -- The method is entered again.
  obtain ⟨type, d', hparse, hd', hb, hfits, rfl, hagain⟩ := start_again hstart
    (replaces_callArguments (hevolves.trans hextends.proceeds.evolves) ha (c.object?_calling w))
  have hmarked : d'.access.isInstrumented := by
    have := h.asleep.marked s.root List.getLastD_mem_cons
    rwa [hroot.method] at this
  have haccepts := hmade.accepts hverified hd' hmarked hfits ⟨_, rfl, c.object?_calling w⟩
    fun heligible => capabilityArgument?_callArguments hparse hd' heligible hfits
  have hsize : c.cell < w.capabilities.size := by
    obtain ⟨state, rest, hstates⟩ := List.exists_cons_of_ne_nil
      (List.reverse_ne_nil_iff.2 h.asleep.states_ne_nil)
    exact World.lt_size_of_states (by rw [h.cell, hstates])
  have hcell : (c.calling w).cell c.cell = ⟨Capability.loading, states.reverse⟩ := by
    have hloading : (c.calling w).cell c.cell = (c.loading w).cell c.cell := rfl
    rw [hloading, loading, if_pos h.state, World.cell_modifyCell_self hsize, h.cell]
  have hsame : (s.callers.map fun a => (a.owner, a.method)).getLastD
      (s.current.owner, s.current.method) = (c.owner, d') := by
    rw [List.getLastD_map (f := fun a : Activation => (a.owner, a.method))]
    exact Prod.ext hroot.owner hroot.method
  obtain ⟨early, late, s', t', back⟩ :=
    (h.asleep.spares hspares).replays hm hsame haccepts hcell 0
  have hsize' : c.cell < s'.world.capabilities.size := by
    rw [back.grows.size, (c.growsBut_calling w).size]
    exact hsize
  have htame : t'.Tame fun a => known a ∨ a = w.objects.size :=
    ((h.tame.within hknown hextends.proceeds.evolves (offers_calling (m := m) h.offers).tidy).extends
      back.grows.objects).alike back.mirrors.world back.running back.waiting
  refine ⟨_, early, late, s', t', hagain, back, World.getElem?_of_cell hsize' back.restored, htame,
    ?_⟩
  obtain ⟨hcurrent, hwaiting⟩ := List.forall_mem_cons.1 h.loaded
  refine List.forall_mem_cons.2
    ⟨hcurrent.congr ⟨back.running.owner, back.running.method⟩, fun b hb => ?_⟩
  obtain ⟨a, ha, hab⟩ := exists_mem_of_forall₂ back.waiting.flip hb
  exact (hwaiting a ha).congr ⟨hab.owner, hab.method⟩

end Dormant

theorem settle_of_saving {completion : Completion} {result : Option Value}
    (hresult : completion.result = .ok result)
    (hsaving : (completion.world.cell c.cell).mode = Capability.saving) :
    c.settle completion =
      ⟨.ok .suspended, { c with state := .suspended }, completion.world⟩ := by
  simp [settle, hresult, CapabilityCell.isSaving, hsaving]

theorem settle_of_not_saving (c : Coroutine) (completion : Completion)
    (h : ∀ result, completion.result = .ok result →
      (completion.world.cell c.cell).mode ≠ Capability.saving) :
    (c.settle completion).coroutine.state = .finished ∧
      (c.settle completion).result ≠ .ok .suspended := by
  unfold settle
  cases hresult : completion.result with
  | error e => simp
  | ok result => simp [CapabilityCell.isSaving, h result hresult]

/-- What comes of a call that goes through the states of the trail: the coroutine is finished, or it
has suspended itself in one of those states, and from there on all code was added code. -/
inductive Settles (m m₀ : Machine) (held : Nat → Prop) (trail : List CallState) (r : Resumption) :
    Prop
  | finishes (state : r.coroutine.state = .finished) (result : r.result ≠ .ok .suspended)
  | suspends {before after : List CallState} {s t : CallState} {states : List Nat}
      {known : Nat → Prop} (parts : trail = before ++ s :: after)
      (added : ∀ u ∈ s :: after, u.current.Added)
      (pushes : pushes r.coroutine.cell (s :: after) = shifts s.active states)
      (dormant : r.coroutine.Dormant m m₀ held known r.world s t states)

/-- Once the call has got to where its methods go on as the original ones, it settles, and takes no
more states. -/
theorem settles (hm : m.Equipped) (hmade : m.MadeFrom m₀) (hverified : m₀.Verified)
    {s₀ s t : CallState} {front : List CallState} (hstart : c.start m w = .running s₀)
    (hadvances : m.Advances s₀ front s) (hmirrors : s.Mirrors m (· = c.cell) known t)
    (htame : t.Tame known) (hloaded : t.Loaded m₀) (holds : ∀ a, held a → known a)
    (hargs : ∀ v ∈ c.args, v.Known known)
    (hcell : s.world.capabilities[c.cell]? = some .initial)
    (hevolves : (c.calling w).Evolves s.world) (goes : c.Goes m w trail r)
    (undisturbed : c.Undisturbed m m₀ held w trail) :
    ∃ rest, trail = front ++ rest ∧ pops c.cell rest = [] ∧ Settles m m₀ held trail r := by
  obtain ⟨unfinished, completes⟩ := goes
  rename_i completion
  rw [hstart] at completes
  obtain ⟨rest, rfl, hrest⟩ := hadvances.split completes
  have hends := ends hmade hm hverified hmirrors htame hloaded holds (fun a ha => ha) hcell hrest
    fun u hu => undisturbed.respects u (List.mem_append_right front hu)
  refine ⟨rest, rfl, ?_⟩
  cases hends with
  | finishes retains hinitial =>
      obtain ⟨hstate, hresult⟩ := settle_of_not_saving c completion
        fun result h => by
          rw [hinitial result h]
          decide
      exact ⟨retains, .finishes hstate hresult⟩
  | @suspends before after s₁ t₁ known₁ states retains parts added pushes hresult hsaving asleep tame
      loaded keeps evolves =>
      obtain ⟨result, hresult⟩ := hresult
      have hsettle := settle_of_saving (c := c) hresult (by rw [hsaving])
      subst parts
      rw [hsettle]
      have hroot : s₁.root.SameMethod s₀.current := by
        rw [← List.append_assoc] at completes
        have hroot := (completes.reaches).root
        have hcallers : s₀.callers = [] := callers_of_start hstart
        rwa [CallState.root, CallState.root, hcallers] at hroot
      refine ⟨retains, .suspends (List.append_assoc ..).symm added pushes ⟨rfl, ⟨tame.tidy,
        fun a ha => keeps a (holds a ha), fun v hv => (hargs v hv).mono keeps⟩, hsaving,
        asleep, tame, loaded, c.calling w, w.objects.size, s₀, c.object?_calling w,
        hevolves.trans evolves, hstart, hroot⟩⟩

/-- A call that's over at once settles without a suspension. -/
theorem settles_over {completion : Completion} (hstart : c.start m w = .over completion)
    (hcell : ((c.calling w).cell c.cell).mode ≠ Capability.saving) (goes : c.Goes m w trail r)
    (undisturbed : c.Undisturbed m m₀ held w trail) : Settles m m₀ held trail r := by
  obtain ⟨-, completes⟩ := goes
  rw [hstart] at completes
  cases completes
  have hkept := undisturbed.atOnce completion hstart
  obtain ⟨hstate, hresult⟩ := settle_of_not_saving c completion
    fun result _ => by rwa [hkept]
  exact .finishes hstate hresult

theorem capabilities_calling_of_ready (ready : c.state = .ready) :
    (c.calling w).capabilities = w.capabilities := by
  rw [capabilities_calling, loading, if_neg (by simp [ready])]

/-- The first call gets next to the call of the original method. -/
theorem mirrors_calling (hm : m.Equipped) (hverified : m₀.Verified)
    (ready : c.state = .ready) (cell : w.capabilities[c.cell]? = some .initial)
    {type : MethodType} {d d' : Method} (hparse : MethodType.parse c.descriptor = .ok type)
    (hcounterpart : d'.Counterpart c.owner d) (hd : m₀.method? ⟨c.owner, c.name, type⟩ = some d)
    (hd' : m.method? ⟨c.owner, c.name, type⟩ = some d') (hb : d.hasBody)
    (hargs : List.Forall₂ (fun v t => (c.calling w).isInstance v t)
      (c.callArguments m (.object w.objects.size))
      (argumentTypes ⟨c.owner, c.name, type⟩ (startKind d))) :
    ∃ front s, m.Advances ⟨c.calling w, 0, ⟨c.owner, d', 0,
        .entry (c.callArguments m (.object w.objects.size)) d'.maxLocals.toNat⟩, []⟩ front s ∧
      (∀ t ∈ front, t.current.Calm) ∧
      s.Mirrors m (· = c.cell) (fun a => known a ∨ a = w.objects.size) ⟨c.calling w, 0,
        ⟨c.owner, d, 0, .entry (c.callArguments m (.object w.objects.size)) d.maxLocals.toNat⟩,
        []⟩ := by
  have hkind : startKind d' = startKind d := by simp only [startKind, hcounterpart.isStatic]
  have hcapability : type.isEligible → ∃ n v, n = c.cell ∧ (c.calling w).Stands n v ∧
      capabilityArgument? (startKind d) (c.callArguments m (.object w.objects.size)) = some v := by
    intro heligible
    have hargument := capabilityArgument?_callArguments hparse hd' heligible (hkind ▸ hargs)
    exact ⟨c.cell, _, rfl, ⟨_, rfl, c.object?_calling w⟩, hkind ▸ hargument⟩
  have hnormal : ∀ n, n = c.cell → ((c.calling w).cell n).mode = Capability.normal := by
    rintro n rfl
    rw [cell_of_getElem? (capabilities_calling_of_ready ready ▸ cell)]
    rfl
  exact mirrors_start hverified hm hcounterpart hd hb hargs
    hcapability hnormal

/-- The first call settles. -/
theorem settles_ready (hm : m.Equipped) (hmade : m.MadeFrom m₀) (hverified : m₀.Verified)
    (ready : c.state = .ready) (offers : w.Offers held known c.args)
    (cell : w.capabilities[c.cell]? = some .initial) (goes : c.Goes m w trail r)
    (undisturbed : c.Undisturbed m m₀ held w trail) : Settles m m₀ held trail r := by
  have hcell : (c.calling w).capabilities[c.cell]? = some .initial := by
    rw [capabilities_calling_of_ready ready, cell]
  have hnotSaving : ((c.calling w).cell c.cell).mode ≠ Capability.saving := by
    rw [cell_of_getElem? hcell]
    decide
  have hoffers := offers_calling (m := m) offers
  rcases hmade.start_cases (c.calling w) c.owner c.name c.descriptor
      (c.callArguments m (.object w.objects.size)) with
    ⟨e, -, hstart⟩ | ⟨type, native, -, -, hsame, hstart⟩ |
    ⟨type, d, d', hparse, hcounterpart, hd, hd', hb, hargs, hstart₀, hstart⟩
  · exact settles_over hstart hnotSaving goes undisturbed
  · generalize native _ _ = outcome at hstart
    rcases outcome with ⟨e | result, u⟩
    · exact settles_over (hsame.trans hstart) hnotSaving goes undisturbed
    · exact settles_over (hsame.trans hstart) hnotSaving goes undisturbed
  · obtain ⟨front, s, hadvances, -, hmirrors⟩ := mirrors_calling hm hverified ready cell
      hparse hcounterpart hd hd' hb hargs
    have htame := tame_entered hverified hoffers hd hb hargs
    have hworld : c.calling w = s.world := hmirrors.world
    obtain ⟨rest, -, -, hsettles⟩ := settles hm hmade hverified hstart hadvances hmirrors htame
      (loaded_start hstart₀) hoffers.held (fun v hv => (offers.args v hv).mono fun a ha => .inl ha)
      (by rw [← hworld, hcell]) (by rw [← hworld]; exact .refl _) goes undisturbed
    exact hsettles

/-- What's known of a coroutine between two calls. -/
inductive Sound (m m₀ : Machine) (held : Nat → Prop) (c : Coroutine) (w : World) : Prop
  | ready {known : Nat → Prop} (state : c.state = .ready) (offers : w.Offers held known c.args)
      (cell : w.capabilities[c.cell]? = some .initial)
  | suspended {known : Nat → Prop} {s t : CallState} {states : List Nat}
      (dormant : c.Dormant m m₀ held known w s t states)
  | finished (state : c.state = .finished)

/-- Each call settles. -/
theorem Sound.settles (hm : m.Equipped) (hmade : m.MadeFrom m₀) (hverified : m₀.Verified)
    (h : c.Sound m m₀ held w) (goes : c.Goes m w trail r)
    (undisturbed : c.Undisturbed m m₀ held w trail) : Settles m m₀ held trail r := by
  cases h with
  | ready state offers cell =>
      exact settles_ready hm hmade hverified state offers cell goes undisturbed
  | suspended dormant =>
      obtain ⟨s₀, early, late, s', t', hstart, back, hcell, htame, hloaded⟩ :=
        dormant.replays hm hmade hverified
      have hevolves : (c.calling w).Evolves s'.world :=
        world_of_start hstart ▸ back.grows.objects.proceeds.evolves
      obtain ⟨rest, -, -, hsettles⟩ := Coroutine.settles hm hmade hverified hstart back.advances
        back.mirrors htame hloaded (fun a ha => .inl (dormant.offers.held a ha))
        (fun v hv => (dormant.offers.args v hv).mono fun a ha => .inl ha) hcell hevolves goes
        undisturbed
      exact hsettles
  | finished state =>
      obtain ⟨unfinished, -⟩ := goes
      exact absurd state unfinished

/-- Nothing changes between two calls. -/
theorem Sound.interlude (h : c.Sound m m₀ held w) (hw : w.Interlude held c.cell u) :
    c.Sound m m₀ held u := by
  cases h with
  | @ready known state offers cell =>
      have hoffers : w.Offers held known [] := ⟨offers.tidy, offers.held, by simp⟩
      exact .ready state ⟨hw.confined.tidy known hoffers, fun a ha => .inl (offers.held a ha),
        fun v hv => (offers.args v hv).mono fun a ha => .inl ha⟩ (hw.capability.trans cell)
  | suspended dormant => exact .suspended (dormant.interlude hw)
  | finished state => exact .finished state

theorem sound_create (owner name descriptor : String) {args : List Value}
    (h : w.Offers held known args) :
    (create w owner name descriptor args).1.Sound m m₀ held
      (create w owner name descriptor args).2 :=
  .ready rfl h.newCapability Array.getElem?_push_size

theorem Course.sound (hm : m.Equipped) (hmade : m.MadeFrom m₀) (hverified : m₀.Verified)
    (h : Course m m₀ held c w) : c.Sound m m₀ held w := by
  induction h with
  | create owner name descriptor offers => exact sound_create owner name descriptor offers
  | resume _ goes undisturbed ih =>
      cases ih.settles hm hmade hverified goes undisturbed with
      | finishes state result => exact .finished state
      | suspends parts added pushes dormant => exact .suspended dormant
  | interlude _ between ih => exact ih.interlude between

end Coroutine

end Resumable
