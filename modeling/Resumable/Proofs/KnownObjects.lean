import Resumable.Proofs.RenamedRuns
import Resumable.Proofs.SnapshotRuns

/-!
# Objects that code doesn't know of

A call that holds no reference to an object, not even by way of other objects, neither changes it
nor gets to know of it.  This is the case of two runs that are the same but for addresses in which
both runs are one.

Natives have to get at nothing but what their arguments give.
-/

namespace Resumable

/-- The renaming that leaves known addresses as they are. -/
def Renaming.diagonal (known : Nat → Prop) : Renaming := fun a a' => a' = a ∧ known a

/-- True if the address stands for one of the other side. -/
def Renaming.Range (ρ : Renaming) (a' : Nat) : Prop := ∃ a, ρ a a'

/-- True if known objects exist, and what they refer to is known. -/
def World.Closed (known : Nat → Prop) (w : World) : Prop :=
  ∀ a, known a → ∃ o, w.object? a = some o ∧ ∀ v ∈ o.parts, v.Known known

/-- True if known objects exist and refer to known objects only, and known arrays hold instances of
their element types. -/
structure World.Tidy (known : Nat → Prop) (w : World) : Prop where
  closed : w.Closed known
  elements : ∀ a element values, known a → w.object? a = some (.array element values) →
    ∀ v ∈ values.toList, w.isInstance v element

/-- What is known, and all addresses that aren't in use. -/
def World.OrFresh (known : Nat → Prop) (w : World) : Nat → Prop := fun a =>
  known a ∨ w.objects.size ≤ a

/-- What was known before, and what has been made since. -/
def World.KnownSince (known : Nat → Prop) (w u : World) : Nat → Prop := fun a =>
  known a ∨ w.objects.size ≤ a ∧ a < u.objects.size

/-- True if what is known is tidy, and is all that a native can get at: its arguments, and what the
host holds. -/
structure World.Offers (held known : Nat → Prop) (w : World) (args : List Value) : Prop where
  tidy : w.Tidy known
  held : ∀ a, held a → known a
  args : ∀ v ∈ args, v.Known known

/-- True if a native has got at nothing but what it's offered and what it has made, which is tidy,
and has left capabilities as they are and wrapped none. -/
structure World.Discreet (held : Nat → Prop) (w : World) (args : List Value)
    (outcome : Except MachineError (Option Value) × World) : Prop where
  capabilities : outcome.2.capabilities = w.capabilities
  wraps : ∀ a n, w.objects.size ≤ a → outcome.2.object? a ≠ some (.capability n)
  spares : ∀ known, w.Offers held known args →
    Spares known (w.KnownSince known outcome.2) w outcome.2
  tidy : ∀ known, w.Offers held known args → outcome.2.Tidy (w.KnownSince known outcome.2)
  result : ∀ known result, w.Offers held known args → outcome.1 = .ok result →
    Value.KnownResult (w.KnownSince known outcome.2) result

/-- True if a native has got at nothing but what it's offered and what it has made, which is tidy. -/
structure World.Confined (held : Nat → Prop) (w : World) (args : List Value)
    (outcome : Except MachineError (Option Value) × World) : Prop where
  spares : ∀ known, w.Offers held known args →
    Spares known (w.KnownSince known outcome.2) w outcome.2
  tidy : ∀ known, w.Offers held known args → outcome.2.Tidy (w.KnownSince known outcome.2)
  result : ∀ known result, w.Offers held known args → outcome.1 = .ok result →
    Value.KnownResult (w.KnownSince known outcome.2) result

variable {ρ ρ' : Renaming} {held known known' : Nat → Prop}

theorem World.Discreet.confined {w : World} {args : List Value}
    {outcome : Except MachineError (Option Value) × World} (h : w.Discreet held args outcome) :
    w.Confined held args outcome := ⟨h.spares, h.tidy, h.result⟩

theorem Value.known_iff {v : Value} : v.Known known ↔ v.Renamed (.diagonal known) v := by
  constructor
  · intro h
    cases v with
    | object a => exact .object ⟨rfl, h⟩
    | null => exact .null
    | int n => exact .int n
    | long n => exact .long n
    | float word => exact .float word
    | double word => exact .double word
  · intro h
    cases h with
    | object pair => exact pair.2
    | _ => trivial

theorem Value.Renamed.eq_of_diagonal {v v' : Value} (h : v.Renamed (.diagonal known) v') : v' = v := by
  cases h with
  | object pair => exact congrArg Value.object pair.1
  | _ => rfl

theorem Value.Renamed.right {v v' : Value} (h : v.Renamed ρ v') :
    v'.Renamed (.diagonal ρ.Range) v' := by
  rw [← Value.known_iff]
  cases h with
  | object pair => exact ⟨_, pair⟩
  | _ => trivial

theorem Object.known_iff {o : Object} :
    (∀ v ∈ o.parts, v.Known known) ↔ o.Renamed (.diagonal known) o := by
  simp only [Value.known_iff]
  constructor
  · intro h
    cases o with
    | string s => exact .string s
    | array element values => exact .array element (List.forall₂_same.2 h)
    | box content => exact .box (h content (by simp [Object.parts]))
    | capability cell => exact .capability cell
    | state point stack locals =>
        exact .state point (h stack (by simp [Object.parts])) (h locals (by simp [Object.parts]))
    | plain typeName => exact .plain typeName
  · intro h v hv
    cases h with
    | array element elements => exact List.forall₂_same.1 elements v hv
    | box inside =>
        obtain rfl := List.mem_singleton.1 hv
        exact inside
    | state point onStack inLocals =>
        simp only [Object.parts, List.mem_cons, List.not_mem_nil, or_false] at hv
        rcases hv with rfl | rfl
        · exact onStack
        · exact inLocals
    | _ => cases hv

theorem Object.Renamed.right {o o' : Object} (h : o.Renamed ρ o') :
    o'.Renamed (.diagonal ρ.Range) o' := by
  cases h with
  | string s => exact .string s
  | array element elements =>
      refine .array element (List.forall₂_same.2 fun v hv => ?_)
      obtain ⟨u, -, hr⟩ := exists_mem_of_forall₂ elements.flip hv
      exact hr.right
  | box inside => exact .box inside.right
  | capability cell => exact .capability cell
  | state point onStack inLocals => exact .state point onStack.right inLocals.right
  | plain typeName => exact .plain typeName

namespace World

variable {w w' u u' : World}

theorem closed_iff : w.Closed known ↔ w.Renamed (.diagonal known) w := by
  constructor
  · refine fun h => ⟨?_, ?_, rfl⟩
    · rintro a b _ _ ⟨rfl, -⟩ ⟨rfl, -⟩
      exact .rfl
    · rintro a _ ⟨rfl, ha⟩
      obtain ⟨o, ho, hparts⟩ := h _ ha
      exact ⟨o, o, ho, ho, Object.known_iff.1 hparts⟩
  · intro h a ha
    obtain ⟨o, o', ho, ho', hr⟩ := h.objects a a ⟨rfl, ha⟩
    obtain rfl : o = o' := Option.some.inj (ho.symm.trans ho')
    exact ⟨o, ho, Object.known_iff.2 hr⟩

theorem Closed.lt_size (h : w.Closed known) {a : Nat} (ha : known a) : a < w.objects.size := by
  obtain ⟨o, ho, -⟩ := h a ha
  exact lt_size_of_object? ho

/-- One side of worlds that are the same but for addresses. -/
theorem Renamed.right (h : w.Renamed ρ w') : w'.Renamed (.diagonal ρ.Range) w' := by
  refine closed_iff.1 fun a' ha' => ?_
  obtain ⟨a, ha⟩ := ha'
  obtain ⟨o, o', -, ho', hr⟩ := h.objects a a' ha
  exact ⟨o', ho', Object.known_iff.2 hr.right⟩

/-- What code on one side may have changed. -/
theorem Matching.spares (h : Matching ρ ρ' w w' u u') : Spares ρ.Range ρ'.Range w' u' := by
  refine ⟨?_, fun a' o hunknown ho => ?_, h.proceeds'⟩
  · rintro a' ⟨a, ha⟩
    rcases h.fresh a a' ha with ha | ⟨-, hle⟩
    · exact .inl ⟨a, ha⟩
    · exact .inr hle
  · rw [h.kept a' (lt_size_of_object? ho) fun a ha => hunknown ⟨a, ha⟩, ho]

theorem range_diagonal : (Renaming.diagonal known).Range = known := by
  funext a
  exact propext ⟨fun ⟨_, h⟩ => h.1 ▸ h.2, fun h => ⟨a, rfl, h⟩⟩

end World

/-- What a confined native does with known arguments. -/
theorem World.Confined.answers {w : World} {args : List Value}
    {outcome : Except MachineError (Option Value) × World} (h : w.Confined held args outcome)
    (hw : w.Offers held known args) :
    World.Renamed.Answers (.diagonal known) w w outcome outcome := by
  have hspares := h.spares known hw
  have hknown := fun result => h.result known result hw
  refine ⟨.diagonal (w.KnownSince known outcome.2), ⟨fun a a' ha => ⟨ha.1, .inl ha.2⟩, ?_, ?_,
    hspares.proceeds, hspares.proceeds⟩, World.closed_iff.1 (h.tidy known hw).closed, ?_⟩
  · rintro a _ ⟨rfl, ha⟩
    rcases ha with ha | ⟨ha, -⟩
    · exact .inl ⟨rfl, ha⟩
    · exact .inr ⟨ha, ha⟩
  · intro a hlt hno
    obtain ⟨o, ho⟩ := Option.ne_none_iff_exists'.1
      (mt World.object?_eq_none_iff.1 (Nat.not_le.2 hlt))
    rw [ho]
    exact hspares.kept a o (fun ha => hno a ⟨rfl, ha⟩) ho
  · generalize outcome.1 = answer at hknown
    cases answer with
    | error e => exact .error (.same e)
    | ok result =>
        cases result with
        | none => exact .ok .none
        | some v => exact .ok (.some (Value.known_iff.1 (hknown (some v) rfl v rfl)))

namespace CallState

variable {s t : CallState}

/-- True if the call gets at known objects only. -/
def Closed (known : Nat → Prop) (s : CallState) : Prop := s.Renamed (.diagonal known) s

theorem Renamed.right (h : s.Renamed ρ t) : t.Closed ρ.Range := by
  have hactivation {q : Nat} {a a' : Activation} (h : a.Renamed ρ q a') :
      a'.Renamed (.diagonal ρ.Range) q a' := by
    refine ⟨rfl, rfl, rfl, fun frames g hframes hg => ?_⟩
    rw [h.owner, h.method] at hframes
    have hf := h.frame frames g hframes hg
    refine ⟨fun k type htype htop => ?_, List.forall₂_same.2 fun v hv => ?_⟩
    · obtain ⟨v, v', -, hv', hr⟩ := hf.locals k type htype htop
      exact ⟨v', v', hv', hv', hr.right⟩
    · obtain ⟨u, -, hr⟩ := exists_mem_of_forall₂ hf.stack.flip hv
      exact hr.right
  refine ⟨h.world.right, h.current.position ▸ hactivation h.current, List.forall₂_same.2 fun a ha => ?_⟩
  obtain ⟨b, -, hr⟩ := exists_mem_of_forall₂ h.callers.flip ha
  exact hr.position ▸ hactivation hr

end CallState

/-- The invariant of calls that get at known objects only.  Addresses that aren't in use yet count
as known to the analysis. -/
structure CallState.Tame (known : Nat → Prop) (s : CallState) : Prop where
  typed : s.Typed (s.world.OrFresh known)
  closed : s.Closed known

theorem Value.Known.mono {v : Value} (h : v.Known known) (hk : ∀ a, known a → known' a) :
    v.Known known' := by
  cases v with
  | object a => exact hk a h
  | _ => trivial

namespace World

variable {w u : World}

/-- Tidy worlds are sound. -/
theorem Tidy.sound (h : w.Tidy known) : w.Sound (w.OrFresh known) := by
  refine ⟨fun a ha => .inr ha, fun a element values ha ho => ?_, fun a o ha ho v hv => ?_⟩
  · rcases ha with ha | ha
    · exact h.elements a element values ha ho
    · exact absurd (lt_size_of_object? ho) (Nat.not_lt.2 ha)
  · rcases ha with ha | ha
    · obtain ⟨o', ho', hparts⟩ := h.closed a ha
      obtain rfl : o = o' := Option.some.inj (ho.symm.trans ho')
      exact (hparts v hv).mono fun a ha => .inl ha
    · exact absurd (lt_size_of_object? ho) (Nat.not_lt.2 ha)

/-- What is known or new since is known or in no use before. -/
theorem orFresh_knownSince (hsize : w.objects.size ≤ u.objects.size) (known : Nat → Prop) :
    u.OrFresh (w.KnownSince known u) = w.OrFresh known := by
  funext a
  simp only [OrFresh, KnownSince, eq_iff_iff]
  constructor
  · rintro ((ha | ha) | ha)
    · exact .inl ha
    · exact .inr ha.1
    · exact .inr (Nat.le_trans hsize ha)
  · rintro (ha | ha)
    · exact .inl (.inl ha)
    · rcases Nat.lt_or_ge a u.objects.size with hlt | hle
      · exact .inl (.inr ⟨ha, hlt⟩)
      · exact .inr hle

end World

/-- A frame that conforms conforms still if known is only what its values refer to. -/
theorem ValueFrame.Conforms.narrow {w : World} {f : ValueFrame} {g : Frame} {K : Nat → Prop}
    (h : f.Conforms K w g) (hf : f.Renamed (.diagonal known) g.locals f)
    (hk : ∀ a, known a → known' a) : f.Conforms known' w g := by
  refine ⟨List.forall₂_iff_get.2 ⟨h.locals.length_eq, fun k h₁ h₂ htop => ⟨?_, ?_⟩⟩,
    List.forall₂_iff_get.2 ⟨h.stack.length_eq, fun k h₁ h₂ htop => ⟨?_, ?_⟩⟩⟩
  · exact ((List.forall₂_iff_get.1 h.locals).2 k h₁ h₂ htop).1
  · obtain ⟨v, v', hv, hv', hr⟩ := hf.locals k _ (List.getElem?_eq_getElem h₂) htop
    obtain rfl := Option.some.inj (hv.symm.trans hv')
    obtain rfl := Option.some.inj ((List.getElem?_eq_getElem h₁).symm.trans hv)
    exact (Value.known_iff.2 hr).mono hk
  · exact ((List.forall₂_iff_get.1 h.stack).2 k h₁ h₂ htop).1
  · exact (Value.known_iff.2 (List.forall₂_same.1 hf.stack _ (List.get_mem _ _))).mono hk

/-- The frame of a method that waits conforms to the one that it waits for, without the result. -/
theorem Activation.Waits.exact {w : World} {a : Activation} {returns : Option ValueType}
    {K : Nat → Prop} (h : a.Waits K w returns) :
    ∃ frames g rest, a.method.analyze a.owner = .ok frames ∧ frames.at? (a.position + 1) = some g ∧
      Frame.Below ⟨g.locals, (returns.map FrameValue.ofType).toList ++ rest⟩ g ∧
      a.frame.Conforms K w ⟨g.locals, rest⟩ := by
  obtain ⟨frames, g, locals, rest, hframes, hg, hbelow, hf⟩ := h
  have hwf := (Method.analyzed_of_analyze hframes).wellFormed _ g hg
  obtain ⟨rest', hrest, hproper, hstack⟩ : ∃ rest', List.Forall₂ FrameValue.Below rest rest' ∧
      (∀ v ∈ rest', v.IsProper) ∧ List.Forall₂ FrameValue.Below
        ((returns.map FrameValue.ofType).toList ++ rest') g.stack := by
    have hs := hbelow.stack
    have hproper := hwf.stackProper
    generalize g.stack = stack at hs hproper
    cases returns with
    | none => exact ⟨stack, hs, hproper, Frame.forall₂_below_refl hproper⟩
    | some type =>
        obtain _ | ⟨htype, hs⟩ := hs
        rw [List.forall_mem_cons] at hproper
        exact ⟨_, hs, hproper.2, .cons htype (Frame.forall₂_below_refl hproper.2)⟩
  exact ⟨frames, g, rest', hframes, hg, ⟨Frame.forall₂_below_refl hwf.localsProper, hstack⟩,
    ValueFrame.Conforms.forall₂_fits_mono hf.locals hbelow.locals hwf.localsProper,
    ValueFrame.Conforms.forall₂_fits_mono hf.stack hrest hproper⟩

/-- A method that waits goes on waiting if known is only what its values refer to. -/
theorem Activation.Waits.narrow {w : World} {a : Activation} {returns : Option ValueType}
    {K : Nat → Prop} (h : a.Waits K w returns)
    (ha : a.Renamed (.diagonal known) (a.position + 1) a) (hk : ∀ a, known a → known' a) :
    a.Waits known' w returns := by
  obtain ⟨frames, g, rest, hframes, hg, hbelow, hf⟩ := h.exact
  exact ⟨frames, g, g.locals, rest, hframes, hg, hbelow, hf.narrow (ha.frame frames g hframes hg) hk⟩

namespace CallState

variable {s t : CallState}

theorem Tame.tidy (h : t.Tame known) : t.world.Tidy known :=
  ⟨World.closed_iff.2 h.closed.world, fun a element values ha ho =>
    h.typed.world.elements a element values (.inl ha) ho⟩

/-- The invariant, if known is only what a typed call can get at. -/
theorem Closed.tame {K : Nat → Prop} (h : t.Closed known)
    (helements : ∀ a element values, known a → t.world.object? a = some (.array element values) →
      ∀ v ∈ values.toList, t.world.isInstance v element)
    (hruns : t.current.Runs K t.world)
    (hchain : Chain K t.world t.current.method.type.returns t.callers) : t.Tame known := by
  have htidy : t.world.Tidy known := ⟨World.closed_iff.2 h.world, helements⟩
  refine ⟨⟨htidy.sound, ?_, ?_⟩, h⟩
  · obtain ⟨frames, g, hframes, hg, hf⟩ := hruns
    exact ⟨frames, g, hframes, hg,
      hf.narrow (h.current.frame frames g hframes hg) fun a ha => .inl ha⟩
  · have hcallers := List.forall₂_same.1 h.callers
    generalize t.current.method.type.returns = returns at hchain
    generalize t.callers = callers at hchain hcallers
    induction callers generalizing returns with
    | nil => trivial
    | cons a callers ih =>
        rw [List.forall_mem_cons] at hcallers
        exact ⟨hchain.1.narrow hcallers.1 fun a ha => .inl ha, ih _ hchain.2 hcallers.2⟩

/-- Whatever happens to the world doesn't matter to a call as long as what the call knows of stays
tidy. -/
theorem Tame.within {u : World} (h : t.Tame known) (hk : ∀ a, known a → known' a)
    (hevolves : t.world.Evolves u) (hu : u.Tidy known') : Tame known' { t with world := u } := by
  have hmono (b b' : Nat) (hb : Renaming.diagonal known b b') : Renaming.diagonal known' b b' :=
    ⟨hb.1, hk b hb.2⟩
  exact Closed.tame (K := t.world.OrFresh known) ⟨World.closed_iff.1 hu.closed,
    h.closed.current.mono hmono, h.closed.callers.imp fun _ _ ha => ha.mono hmono⟩ hu.elements
    (h.typed.runs.evolves hevolves) (h.typed.chain.evolves hevolves)

/-- New objects of which a call doesn't know don't matter to it. -/
theorem Tame.extends {u : World} (h : t.Tame known)
    (hu : ∀ a o, t.world.object? a = some o → u.object? a = some o) :
    Tame known { t with world := u } := by
  have hevolves : t.world.Evolves u := fun a o ho => ⟨o, hu a o ho, rfl⟩
  have htidy := h.tidy
  have same {a : Nat} {o : Object} (ha : known a) (ho : u.object? a = some o) :
      t.world.object? a = some o := by
    obtain ⟨o', ho', -⟩ := htidy.closed a ha
    rwa [← Option.some.inj ((hu a o' ho').symm.trans ho)]
  refine h.within (fun _ ha => ha) hevolves ⟨fun a ha => ?_, fun a element values ha ho v hv => ?_⟩
  · obtain ⟨o, ho, hparts⟩ := htidy.closed a ha
    exact ⟨o, hu a o ho, hparts⟩
  · exact hevolves.isInstance (htidy.elements a element values ha (same ha ho) v hv)

end CallState

namespace ValueFrame

variable {w u : World} {f e : ValueFrame} {i : Instruction} {flow : Flow}

theorem mem_of_popMany {n : Nat} {args : List Value} (h : f.popMany n = .ok (args, e)) {v : Value}
    (hv : v ∈ args) : v ∈ f.stack := by
  simp only [popMany] at h
  split at h
  · cases h
  · cases h
    exact List.mem_of_mem_take (List.mem_reverse.1 hv)

/-- What an instruction may do to the world. -/
inductive Changes (w : World) : World → Prop
  | none : Changes w w
  | string (text : String) : Changes w (w.allocate (.string text)).2
  | newArray (element : ValueType) (length : Nat) : Changes w (w.newArray element length).2
  | setElement (address index : Nat) (v : Value) : Changes w (w.setElement address index v)

theorem changes_access (h : f.access w i = .ok (e, u)) : Changes w u := by
  cases i with
  | newArray element =>
      obtain ⟨⟨n, f⟩, -, h⟩ := Except.bind_eq_ok.1 h
      dsimp only at h
      split at h
      · cases h
      · cases h
        exact .newArray element _
  | arrayStore kind =>
      obtain ⟨_, _, h⟩ := Except.bind_eq_ok.1 h
      obtain ⟨_, _, h⟩ := Except.bind_eq_ok.1 h
      obtain ⟨_, _, h⟩ := Except.bind_eq_ok.1 h
      obtain ⟨_, _, h⟩ := Except.bind_eq_ok.1 h
      obtain ⟨_, _, h⟩ := Except.bind_eq_ok.1 h
      obtain ⟨_, _, h⟩ := Except.bind_eq_ok.1 h
      cases h
      exact .setElement _ _ _
  | arrayLength | instanceOf | arrayLoad | checkCast =>
      simp only [access, Except.bind_eq_ok, pure, Except.pure, Except.ok.injEq, Prod.mk.injEq] at h
      obtain rfl : u = w := by grind only
      exact .none
  | _ =>
      cases h
      exact .none

theorem changes_execute (h : f.execute w i = .ok (flow, e, u)) : Changes w u := by
  cases i with
  | const constant =>
      cases constant with
      | string text =>
          cases h
          exact .string text
      | _ =>
          cases h
          exact .none
  | newArray | arrayLength | arrayLoad | arrayStore | checkCast | instanceOf =>
      obtain ⟨⟨e', u'⟩, haccess, h⟩ := Except.bind_eq_ok.1 h
      cases h
      exact changes_access haccess
  | jumpSubroutine | returnSubroutine => cases h
  | label | nop =>
      cases h
      exact .none
  | throw =>
      obtain ⟨x, -, h⟩ := Except.bind_eq_ok.1 h
      cases h
  | load | store | pop | pop2 | dup | dupX1 | dupX2 | dup2 | swap | binary | negate | convert
  | compare | ifZero | ifCompare | ifSame | ifNull | goto | tableSwitch | lookupSwitch | invoke =>
      simp only [execute, Except.bind_eq_ok, pure, Except.pure, Except.ok.injEq, Prod.mk.injEq] at h
      obtain rfl : u = w := by grind only
      exact .none
  | leave kind =>
      cases kind with
      | none =>
          cases h
          exact .none
      | some kind =>
          obtain ⟨x, -, h⟩ := Except.bind_eq_ok.1 h
          cases h
          exact .none
  | monitorEnter | monitorExit =>
      obtain ⟨x, -, h⟩ := Except.bind_eq_ok.1 h
      dsimp only at h
      split at h
      · cases h
      · cases h
        exact .none
  | increment index delta =>
      obtain ⟨v, -, h⟩ := Except.bind_eq_ok.1 h
      cases v with
      | int n =>
          obtain ⟨f, -, h⟩ := Except.bind_eq_ok.1 h
          cases h
          exact .none
      | _ => cases h

/-- No instruction changes a capability. -/
theorem Changes.capabilities (h : Changes w u) : u.capabilities = w.capabilities := by
  cases h <;> rfl

/-- No instruction makes an object that wraps a capability. -/
theorem Changes.wraps_none (h : Changes w u) {a : Nat} (ha : w.objects.size ≤ a) (n : Nat) :
    u.object? a ≠ some (.capability n) := by
  intro ho
  have hnone : w.object? a = Option.none := World.object?_eq_none_iff.2 ha
  cases h with
  | none => simp [hnone] at ho
  | string text =>
      rw [World.object?_allocate] at ho
      split at ho
      · cases ho
      · simp [hnone] at ho
  | newArray element length =>
      rw [World.newArray, World.object?_allocate] at ho
      split at ho
      · cases ho
      · simp [hnone] at ho
  | setElement address index v =>
      rw [World.object?_setElement, hnone] at ho
      split at ho <;> cases ho

/-- Only invocations call methods. -/
theorem eq_invoke_of_call {kind : InvokeKind} {method : MethodRef} {args : List Value}
    (h : f.execute w i = .ok (.call kind method args, e, u)) : i = .invoke kind method := by
  cases i with
  | invoke kind' method' =>
      simp only [execute] at h
      obtain ⟨x, -, h⟩ := Except.bind_eq_ok.1 h
      cases h
      rfl
  | jumpSubroutine | returnSubroutine => cases h
  | label | nop => cases h
  | const constant => cases constant <;> cases h
  | throw =>
      obtain ⟨x, -, h⟩ := Except.bind_eq_ok.1 h
      cases h
  | load | store | pop | pop2 | dup | dupX1 | dupX2 | dup2 | swap | binary | negate | convert
  | compare | newArray | arrayLength | arrayLoad | arrayStore | checkCast | instanceOf =>
      simp only [execute, Except.bind_eq_ok, pure, Except.pure, Except.ok.injEq, Prod.mk.injEq] at h
      grind only
  | leave kind =>
      cases kind with
      | none => cases h
      | some kind =>
          obtain ⟨x, -, h⟩ := Except.bind_eq_ok.1 h
          cases h
  | monitorEnter | monitorExit =>
      obtain ⟨x, -, h⟩ := Except.bind_eq_ok.1 h
      dsimp only at h
      split at h <;> cases h
  | increment index delta =>
      obtain ⟨v, -, h⟩ := Except.bind_eq_ok.1 h
      cases v with
      | int n =>
          obtain ⟨f, -, h⟩ := Except.bind_eq_ok.1 h
          cases h
      | _ => cases h
  | ifZero | ifCompare | ifSame | ifNull | goto | tableSwitch | lookupSwitch =>
      simp only [execute, branch, Except.bind_eq_ok, pure, Except.pure, Except.ok.injEq,
        Prod.mk.injEq] at h
      grind only
end ValueFrame

namespace Machine

variable {m : Machine} {t t' : CallState}

/-- True if the native that the next step calls, if it calls one, is discreet and gives what its
method's type promises. -/
def CallsDiscreetly (m : Machine) (held : Nat → Prop) (t : CallState) : Prop :=
  ∀ kind method args native, t.invocation? = some (kind, method, args) →
    m.native? method = some native → t.world.Discreet held args (native t.world args) ∧
      ∀ result, (native t.world args).1 = .ok result →
        (native t.world args).2.Promised result method.type.returns

/-- True if the native that the next step calls, if it calls one, is confined and gives what its
method's type promises. -/
def CallsConfined (m : Machine) (held : Nat → Prop) (t : CallState) : Prop :=
  ∀ kind method args native, t.invocation? = some (kind, method, args) →
    m.native? method = some native → t.world.Confined held args (native t.world args) ∧
      ∀ result, (native t.world args).1 = .ok result →
        (native t.world args).2.Promised result method.type.returns

theorem CallsDiscreetly.confined (h : m.CallsDiscreetly held t) : m.CallsConfined held t :=
  fun kind method args native hcall hn =>
    (h kind method args native hcall hn).imp_left World.Discreet.confined

/-- An invocation is made by an instruction that stands for it, with arguments from the stack. -/
theorem execute_of_invocation? {kind : InvokeKind} {method : MethodRef} {args : List Value}
    (h : t.invocation? = some (kind, method, args)) :
    t.current.method.body.get? t.current.position = some (.invoke kind method) ∧
      ∃ f, t.current.frame.execute t.world (.invoke kind method) =
        .ok (.call kind method args, f, t.world) := by
  obtain ⟨i, hi, h⟩ := Option.bind_eq_some_iff.1 h
  split at h
  · rename_i hexecute
    cases h
    obtain rfl := ValueFrame.eq_invoke_of_call hexecute
    exact ⟨hi, _, by rw [hexecute, ValueFrame.world_of_invoke hexecute]⟩
  · cases h

/-- Executing the current instruction changes the world as instructions do, or calls a native. -/
theorem execute_cases {i : Instruction}
    (hi : t.current.method.body.get? t.current.position = some i)
    (next : step.execute m t i = .running t') : ValueFrame.Changes t.world t'.world ∨
      ∃ kind method args native result, t.invocation? = some (kind, method, args) ∧
        m.native? method = some native ∧ native t.world args = (.ok result, t'.world) := by
  simp only [step.execute] at next
  cases hexecute : t.current.frame.execute t.world i with
  | error e =>
      rw [hexecute] at next
      cases next
  | ok outcome =>
      obtain ⟨flow, f, u⟩ := outcome
      have hchanges := ValueFrame.changes_execute hexecute
      rw [hexecute] at next
      cases flow with
      | proceed =>
          cases next
          exact .inl hchanges
      | jump target =>
          simp only [follow] at next
          split at next
          · cases next
            exact .inl hchanges
          · cases next
      | leave result =>
          simp only [follow, CallState.leave] at next
          split at next
          · cases next
          · cases next
            exact .inl hchanges
      | call kind method args =>
          have hcall : t.invocation? = some (kind, method, args) := by
            simp [CallState.invocation?, hi, hexecute]
          obtain rfl := ValueFrame.eq_invoke_of_call hexecute
          obtain rfl : u = t.world := ValueFrame.world_of_invoke hexecute
          simp only [follow] at next
          rcases m.invoke_cases (t.callers.length + 1) t.world kind method args with
            ⟨e, hinvoke, -⟩ | ⟨outcome, houtcome, hinvoke⟩ | ⟨d, -, -, -, -, -, hinvoke⟩
          · rw [hinvoke] at next
            cases next
          · simp only [nativeOutcome?] at houtcome
            split at houtcome
            · cases houtcome
            · obtain ⟨native, hn, rfl⟩ := Option.map_eq_some_iff.1 houtcome
              rw [hinvoke] at next
              cases hanswer : native t.world args with
              | mk answer u =>
                  rw [hanswer] at next
                  cases answer with
                  | error e => cases next
                  | ok result =>
                      cases next
                      exact .inr ⟨kind, method, args, native, result, hcall, hn, hanswer⟩
          · rw [hinvoke] at next
            cases next
            exact .inl .none

/-- A step executes an instruction, or calls a native. -/
theorem running_cases (next : m.step t = .running t') : ValueFrame.Changes t.world t'.world ∨
      ∃ kind method args native result, t.invocation? = some (kind, method, args) ∧
        m.native? method = some native ∧ native t.world args = (.ok result, t'.world) := by
  obtain ⟨i, hi, hexecute⟩ := execute_of_step next
  exact execute_cases hi hexecute

/-- A call that gets at known objects only has known arguments. -/
theorem known_of_invocation? {K : Nat → Prop} (ht : t.Typed K) (h : t.Closed known) {kind : InvokeKind}
    {method : MethodRef} {args : List Value} (hcall : t.invocation? = some (kind, method, args)) :
    ∀ v ∈ args, v.Known known := by
  obtain ⟨-, f, hexecute⟩ := execute_of_invocation? hcall
  obtain ⟨frames, g, i, g', hp⟩ := ht.runs.poised ht.world
  have hstack := (h.current.frame frames g hp.analyze hp.frame).stack
  simp only [ValueFrame.execute] at hexecute
  obtain ⟨⟨args', f'⟩, hpop, hexecute⟩ := Except.bind_eq_ok.1 hexecute
  cases hexecute
  intro v hv
  rw [Value.known_iff]
  exact List.forall₂_same.1 hstack v (ValueFrame.mem_of_popMany hpop hv)

/-- A confined native keeps to what natives have to keep to. -/
theorem keeps_of_confined {w : World} {args : List Value} {returns : Option ValueType}
    {outcome : Except MachineError (Option Value) × World} (h : w.Confined held args outcome)
    (hpromise : ∀ result, outcome.1 = .ok result → outcome.2.Promised result returns)
    (hw : w.Offers held known args) :
    w.Keeps (w.OrFresh known) returns outcome := by
  intro result hresult
  have hspares := h.spares known hw
  have hknown := h.result known result hw hresult
  have hsince := World.orFresh_knownSince hspares.proceeds.evolves.size_le known
  have hsound := (h.tidy known hw).sound
  rw [hsince] at hsound
  refine ⟨hpromise result hresult, fun v hv => (hknown v hv).mono fun a ha => ?_, hsound,
    hspares.proceeds.evolves⟩
  exact hsince ▸ .inl ha

/-- A step that calls no native or a discreet one leaves capabilities as they are. -/
theorem capabilities_step (hnative : m.CallsDiscreetly held t) (next : m.step t = .running t') :
    t'.world.capabilities = t.world.capabilities := by
  rcases running_cases next with
    hchanges | ⟨kind, method, args, native, result, hcall, hn, hanswer⟩
  · exact hchanges.capabilities
  · have := (hnative kind method args native hcall hn).1.capabilities
    rwa [hanswer] at this

/-- A step of a call that gets at known objects only changes no other ones, and doesn't get to know
of them. -/
theorem tame_step (hm : m.Verified) (hlimit : m.limits.instructions = none) (h : t.Tame known)
    (hheld : ∀ a, held a → known a) (hnative : m.CallsConfined held t)
    (next : m.step t = .running t') :
    ∃ known' : Nat → Prop, (∀ a, known a → known' a) ∧
      World.Spares known known' t.world t'.world ∧ t'.Tame known' := by
  have hargs (kind : InvokeKind) (method : MethodRef) (args : List Value)
      (hcall : t.invocation? = some (kind, method, args)) : t.world.Offers held known args :=
    ⟨h.tidy, hheld, known_of_invocation? h.typed h.closed hcall⟩
  have hstep := renamed_step hlimit h.typed h.typed h.closed
    fun kind method args args' native hcall hn hrenamed => by
      obtain rfl : args' = args := by
        have heq := hrenamed.flip.imp fun _ _ h => h.eq_of_diagonal
        rwa [List.forall₂_eq_eq_eq] at heq
      exact (hnative kind method args' native hcall hn).1.answers (hargs _ _ _ hcall)
  have htyped : (m.step t).Typed (t.world.OrFresh known) := by
    refine (typed_step hm h.typed fun method outcome houtcome => ?_).1
    obtain ⟨⟨kind, method', args⟩, hcall, houtcome⟩ := Option.bind_eq_some_iff.1 houtcome
    obtain ⟨outcome', hnative', heq⟩ := Option.map_eq_some_iff.1 houtcome
    cases heq
    simp only [nativeOutcome?] at hnative'
    split at hnative'
    · cases hnative'
    · obtain ⟨native, hn, rfl⟩ := Option.map_eq_some_iff.1 hnative'
      obtain ⟨hconfined, hpromise⟩ := hnative kind method args native hcall hn
      exact keeps_of_confined hconfined hpromise (hargs _ _ _ hcall)
  rw [next] at hstep htyped
  cases hstep with
  | @running _ _ ρ' matching states =>
      have hspares := matching.spares
      rw [World.range_diagonal] at hspares
      exact ⟨ρ'.Range, fun a ha => ⟨a, matching.mono a a ⟨rfl, ha⟩⟩, hspares,
        states.right.tame (fun a element values ha =>
          htyped.world.elements a element values (hspares.fresh a ha)) htyped.runs htyped.chain⟩

end Machine

end Resumable
