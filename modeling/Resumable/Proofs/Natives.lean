import Resumable.Proofs.AddedCode
import Resumable.Proofs.KnownObjects

/-!
# Natives that can be relied on

A native is discreet if it gets at nothing but what its arguments give and what the host holds, and
leaves capabilities alone.  It's equivariant if it doesn't look at addresses.  The natives of boxes
and of method states are both.
-/

namespace Resumable

variable {held known : Nat → Prop} {ρ : Renaming} {w w' : World} {args args' : List Value}

/-- True if the native is discreet whenever it's called. -/
def Native.Discreet (held : Nat → Prop) (native : Native) : Prop :=
  ∀ (w : World) args, w.Discreet held args (native w args)

/-- True if the native does the same in worlds that are the same but for addresses.  Objects that
the host holds are at the same addresses in both. -/
def Native.Equivariant (held : Nat → Prop) (native : Native) : Prop :=
  ∀ ρ w w' args args', (∀ a, held a → ρ a a) → w.Renamed ρ w' →
    w'.capabilities = w.capabilities → List.Forall₂ (Value.Renamed ρ) args args' →
      World.Renamed.Answers ρ w w' (native w args) (native w' args')

namespace World.Discreet

/-- What only looks at objects is discreet if it finds nothing that it isn't offered. -/
theorem stay {answer : Except MachineError (Option Value)}
    (h : ∀ known v, w.Offers held known args → answer = .ok (some v) → v.Known known) :
    w.Discreet held args (answer, w) := by
  have hsame (known : Nat → Prop) (a : Nat) (ha : w.KnownSince known w a) : known a :=
    ha.resolve_right fun ⟨hle, hlt⟩ => Nat.not_lt.2 hle hlt
  refine ⟨rfl, fun a n ha ho => Nat.not_lt.2 ha (lt_size_of_object? ho),
    fun known _ => ⟨fun a ha => .inl (hsame known a ha), fun _ _ _ ho => ho, .refl w⟩,
    fun known hw => ⟨fun a ha => ?_, fun a element values ha =>
      hw.tidy.elements a element values (hsame known a ha)⟩, fun known result hw hresult v hv => ?_⟩
  · obtain ⟨o, ho, hparts⟩ := hw.tidy.closed a (hsame known a ha)
    exact ⟨o, ho, fun v hv => (hparts v hv).mono fun _ => .inl⟩
  · subst hv
    exact (h known v hw hresult).mono fun _ => .inl

/-- Making an object from arguments is discreet, but for arrays and capabilities. -/
theorem allocate {o : Object} (hparts : ∀ v ∈ o.parts, v ∈ args)
    (ho : ∀ element values, o ≠ .array element values) (hcapability : ∀ n, o ≠ .capability n) :
    w.Discreet held args (.ok (some (w.allocate o).1), (w.allocate o).2) := by
  have hnew (known : Nat → Prop) (a : Nat) (ha : w.KnownSince known (w.allocate o).2 a) :
      known a ∨ a = w.objects.size := by
    refine ha.imp_right fun ⟨hle, hlt⟩ => ?_
    have hsize : (w.allocate o).2.objects.size = w.objects.size + 1 := Array.size_push _
    omega
  have hsize (known : Nat → Prop) : w.KnownSince known (w.allocate o).2 w.objects.size := by
    refine .inr ⟨Nat.le_refl _, ?_⟩
    rw [World.allocate, Array.size_push]
    exact Nat.lt_succ_self _
  refine ⟨rfl, fun a n ha hp => ?_, fun known _ => ⟨fun a ha => ?_, fun a p _ hp => ?_, .allocate w o⟩,
    fun known hw => ⟨fun a ha => ?_, fun a element values ha hp v hv => ?_⟩,
    fun known result hw hresult v hv => ?_⟩
  · rw [object?_allocate] at hp
    split at hp
    · exact hcapability n (Option.some.inj hp)
    · exact Nat.not_lt.2 ha (lt_size_of_object? hp)
  · exact (hnew known a ha).imp_right fun h => Nat.le_of_eq h.symm
  · rw [object?_allocate, if_neg (Nat.ne_of_lt (lt_size_of_object? hp)), hp]
  · rw [object?_allocate]
    split
    · exact ⟨o, rfl, fun v hv => (hw.args v (hparts v hv)).mono fun _ => .inl⟩
    · rename_i hne
      obtain ⟨p, hp, hknown⟩ := hw.tidy.closed a ((hnew known a ha).resolve_right hne)
      exact ⟨p, hp, fun v hv => (hknown v hv).mono fun _ => .inl⟩
  · rw [object?_allocate] at hp
    split at hp
    · exact absurd (Option.some.inj hp) (ho element values)
    · rename_i hne
      exact (Proceeds.allocate w o).evolves.isInstance
        (hw.tidy.elements a element values ((hnew known a ha).resolve_right hne) hp v hv)
  · cases hresult
    cases hv
    exact hsize known

end World.Discreet

namespace Library

/-- The object that a native is called on. -/
theorem receiver_eq_ok {o : Object} (h : receiver w args = .ok o) :
    ∃ a rest, args = .object a :: rest ∧ w.object? a = some o := by
  cases args with
  | nil => cases h
  | cons v rest =>
      simp only [receiver, List.head?_cons, Option.bind_some] at h
      cases v with
      | object a =>
          simp only [World.referent?] at h
          split at h
          · rename_i hfound
            cases h
            exact ⟨a, rest, rfl, hfound⟩
          · cases h
      | _ => cases h

/-- What's in the object that a native is called on may be known. -/
theorem known_of_receiver (hw : w.Offers held known args) {o : Object}
    (h : receiver w args = .ok o) : ∀ v ∈ o.parts, v.Known known := by
  obtain ⟨a, rest, rfl, ho⟩ := receiver_eq_ok h
  obtain ⟨o', ho', hparts⟩ := hw.tidy.closed a (hw.args _ List.mem_cons_self)
  obtain rfl := Option.some.inj (ho.symm.trans ho')
  exact hparts

theorem renamed_receiver (hw : w.Renamed ρ w') (h : List.Forall₂ (Value.Renamed ρ) args args') :
    Attempt.Renamed ρ (Object.Renamed ρ) (receiver w args) (receiver w' args') := by
  cases h with
  | nil => exact .error (.same _)
  | @cons v v' _ _ hv _ =>
      simp only [receiver, List.head?_cons, Option.bind_some]
      cases hv with
      | object pair =>
          obtain ⟨o, o', ho, ho', hr⟩ := hw.objects _ _ pair
          simp only [World.referent?, ho, ho']
          exact .ok hr
      | _ => exact .error (.same _)

/-- An operation that looks at the object that it's called on. -/
def looking (look : Object → Except MachineError Value) (w : World) (args : List Value) : Outcome := do
  let v ← (receiver w args).bind look
  return (some v, w)

theorem discreet_looking {look : Object → Except MachineError Value}
    (h : ∀ o v, look o = .ok v → v ∈ o.parts ∨ ∀ known, v.Known known) :
    (native (looking look)).Discreet held := by
  intro w args
  simp only [native, looking]
  cases hlook : (receiver w args).bind look with
  | error e => exact .stay fun _ _ _ hanswer => by cases hanswer
  | ok v =>
      refine .stay fun known u hw hanswer => ?_
      cases hanswer
      obtain ⟨o, ho, hv⟩ := Except.bind_eq_ok.1 hlook
      rcases h o v hv with hmem | hknown
      · exact known_of_receiver hw ho v hmem
      · exact hknown known

theorem equivariant_looking {look : Object → Except MachineError Value}
    (h : ∀ ρ o o', o.Renamed ρ o' → Attempt.Renamed ρ (Value.Renamed ρ) (look o) (look o')) :
    (native (looking look)).Equivariant held := by
  intro ρ w w' args args' _ hw _ hargs
  have hlook := (renamed_receiver hw hargs).bind (h ρ)
  simp only [native, looking]
  change Attempt.Renamed ρ _ ((receiver w args).bind look) ((receiver w' args').bind look) at hlook
  generalize (receiver w args).bind look = x at hlook
  generalize (receiver w' args').bind look = y at hlook
  cases hlook with
  | error errors => exact hw.stay (.error errors)
  | ok results => exact hw.stay (.ok (.some results))

/-- What's found in the state of a method. -/
def part (select : Int32 × Value × Value → Value) : Object → Except MachineError Value
  | .state point stack locals => .ok (select (point, stack, locals))
  | o => .error (.classCast Capability.stateType o.type)

theorem getPoint_eq : getPoint = looking (part fun parts => .int parts.1) := by
  funext w args
  simp only [getPoint, methodState, looking]
  cases receiver w args with
  | error e => rfl
  | ok o => cases o <;> rfl

theorem getStack_eq : getStack = looking (part fun parts => parts.2.1) := by
  funext w args
  simp only [getStack, methodState, looking]
  cases receiver w args with
  | error e => rfl
  | ok o => cases o <;> rfl

theorem getLocals_eq : getLocals = looking (part fun parts => parts.2.2) := by
  funext w args
  simp only [getLocals, methodState, looking]
  cases receiver w args with
  | error e => rfl
  | ok o => cases o <;> rfl

/-- What's found in a box. -/
def content : Object → Except MachineError Value
  | .box v => .ok v
  | o => .error (.badArguments (.expectedBox o.type))

theorem unbox_eq : unbox = looking content := by
  funext w args
  simp only [unbox, looking]
  cases receiver w args with
  | error e => rfl
  | ok o => cases o <;> rfl

/-- True if a native is discreet and equivariant. -/
structure Reliable (held : Nat → Prop) (native : Native) : Prop where
  discreet : native.Discreet held
  equivariant : native.Equivariant held

/-- A native that gets at some objects that the host holds gets at more of them. -/
theorem Reliable.mono {held held' : Nat → Prop} {native : Native} (h : Reliable held native)
    (hheld : ∀ a, held a → held' a) : Reliable held' native := by
  have hoffers {w : World} {args : List Value} {known : Nat → Prop}
      (ho : w.Offers held' known args) : w.Offers held known args :=
    ⟨ho.tidy, fun a ha => ho.held a (hheld a ha), ho.args⟩
  refine ⟨fun w args => ?_, fun ρ w w' args args' hpairs =>
    h.equivariant ρ w w' args args' fun a ha => hpairs a (hheld a ha)⟩
  have hdiscreet := h.discreet w args
  exact ⟨hdiscreet.capabilities, hdiscreet.wraps, fun known ho => hdiscreet.spares known (hoffers ho),
    fun known ho => hdiscreet.tidy known (hoffers ho),
    fun known result ho => hdiscreet.result known result (hoffers ho)⟩

theorem reliable_part {select : Int32 × Value × Value → Value}
    (hselect : (∃ f : Int32 → Int32, select = fun parts => .int (f parts.1)) ∨
      select = (fun parts => parts.2.1) ∨ select = fun parts => parts.2.2) :
    Reliable held (native (looking (part select))) := by
  refine ⟨discreet_looking fun o v h => ?_, equivariant_looking fun ρ o o' h => ?_⟩
  · cases o with
    | state point stack locals =>
        cases h
        rcases hselect with ⟨f, rfl⟩ | rfl | rfl
        · exact .inr fun _ => trivial
        · exact .inl (by simp [Object.parts])
        · exact .inl (by simp [Object.parts])
    | _ => cases h
  · cases h with
    | state point onStack inLocals =>
        refine .ok ?_
        rcases hselect with ⟨f, rfl⟩ | rfl | rfl
        · exact .int _
        · exact onStack
        · exact inLocals
    | box inside =>
        simp only [part, Object.type, inside.kind]
        exact .error (.same _)
    | _ => exact .error (.same _)

theorem reliable_unbox : Reliable held (native unbox) := by
  rw [unbox_eq]
  refine ⟨discreet_looking fun o v h => ?_, equivariant_looking fun ρ o o' h => ?_⟩
  · cases o with
    | box content =>
        cases h
        exact .inl (by simp [Object.parts])
    | _ => cases h
  · cases h with
    | box inside => exact .ok inside
    | _ => exact .error (.same _)

theorem reliable_box : Reliable held (native box) := by
  constructor
  · intro w args
    cases args with
    | nil => exact .stay fun _ _ _ h => by cases h
    | cons v rest => exact .allocate (by simp [Object.parts]) (by simp) (by simp)
  · intro ρ w w' args args' _ hw _ hargs
    cases hargs with
    | nil => exact hw.stay (.error (.same _))
    | cons hv _ =>
        obtain ⟨ρ', hmatching, hrenamed, hnew⟩ := hw.allocate (.box hv)
        exact ⟨ρ', hmatching, hrenamed, .ok (.some hnew)⟩

/-- Making a state fails for the same reason on both sides, if it does. -/
theorem createState_cases (h : List.Forall₂ (Value.Renamed ρ) args args') :
    (∃ point s l s' l', args = [.int point, s, l] ∧ args' = [.int point, s', l'] ∧
      s.Renamed ρ s' ∧ l.Renamed ρ l') ∨
    ∃ e, ∀ w, createState w args = .error e ∧ createState w args' = .error e := by
  match h with
  | .nil | .cons _ .nil | .cons _ (.cons _ .nil) | .cons _ (.cons _ (.cons _ (.cons _ _))) =>
      exact .inr ⟨.badArguments .expectedThree, fun w => by simp [createState]⟩
  | .cons hv (.cons hs (.cons hl .nil)) =>
      cases hv with
      | int point => exact .inl ⟨point, _, _, _, _, rfl, rfl, hs, hl⟩
      | _ => exact .inr ⟨_, fun w => ⟨rfl, rfl⟩⟩

theorem reliable_createState : Reliable held (native createState) := by
  constructor
  · intro w args
    have hsame : List.Forall₂ (Value.Renamed (.diagonal fun _ => True)) args args :=
      List.forall₂_same.2 fun v _ => Value.known_iff.1 v.known_all
    rcases createState_cases hsame with ⟨point, s, l, _, _, rfl, -⟩ | ⟨e, he⟩
    · exact .allocate (by simp [Object.parts]) (by simp) (by simp)
    · simp only [native, (he w).1]
      exact .stay fun _ _ _ h => by cases h
  · intro ρ w w' args args' _ hw _ hargs
    rcases createState_cases hargs with ⟨point, s, l, s', l', rfl, rfl, hs, hl⟩ | ⟨e, he⟩
    · obtain ⟨ρ', hmatching, hrenamed, hnew⟩ := hw.allocate (.state point hs hl)
      exact ⟨ρ', hmatching, hrenamed, .ok (.some hnew)⟩
    · simp only [native, (he w).1, (he w').2]
      exact hw.stay (.error (.same _))

/-- The natives of boxes and of method states can be relied on. -/
theorem reliable_of_lookup {method : MethodRef} {n : Native}
    (h : natives.lookup method = some n) (howner : method.owner ≠ Capability.typeName) :
    Reliable held n := by
  obtain ⟨before, after, heq, -⟩ := List.lookup_eq_some_iff.1 h
  have hmem : (method, n) ∈ natives := by simp [heq]
  simp only [natives, operations, List.map_append, List.map_cons, List.map_nil, List.flatMap_cons,
    List.flatMap_nil, List.mem_append, List.mem_cons, List.not_mem_nil, or_false, Prod.mk.injEq] at hmem
  have hpoint : Reliable held (native getPoint) := by
    rw [getPoint_eq]
    exact reliable_part (.inl ⟨id, rfl⟩)
  have hstack : Reliable held (native getStack) := by
    rw [getStack_eq]
    exact reliable_part (.inr (.inl rfl))
  have hlocals : Reliable held (native getLocals) := by
    rw [getLocals_eq]
    exact reliable_part (.inr (.inr rfl))
  rcases hmem with (⟨rfl, -⟩ | ⟨rfl, -⟩ | ⟨rfl, -⟩ | ⟨rfl, -⟩ | ⟨rfl, -⟩ | ⟨-, rfl⟩ | ⟨-, rfl⟩ |
    ⟨-, rfl⟩ | ⟨-, rfl⟩) | hmem
  iterate 5 exact absurd rfl howner
  · exact reliable_createState
  · exact hpoint
  · exact hstack
  · exact hlocals
  · have hcases : n = native box ∨ n = native unbox := by
      rcases hmem with (⟨-, h⟩ | ⟨-, h⟩) | (⟨-, h⟩ | ⟨-, h⟩) | (⟨-, h⟩ | ⟨-, h⟩) | ⟨-, h⟩ | ⟨-, h⟩ <;>
        simp [h]
    rcases hcases with rfl | rfl
    · exact reliable_box
    · exact reliable_unbox

end Library

end Resumable
