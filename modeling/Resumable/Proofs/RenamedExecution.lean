import Resumable.Proofs.Execution
import Resumable.Proofs.Renaming

/-!
# Execution doesn't look at addresses

An instruction does the same to frames whose operand stacks are the same but for addresses.  It
fails on both sides with errors of one kind, or goes on in the same way.  Only three instructions
look at the locals; of the others nothing needs to be known but the operand stack.
-/

namespace Resumable

/-- True if the errors are of one kind, and the same if the code that runs has raised them.  What
was misused isn't compared. -/
inductive MachineError.Renamed (ρ : Renaming) : MachineError → MachineError → Prop
  | same (e : MachineError) : Renamed ρ e e
  | thrown {v v' : Value} (value : v.Renamed ρ v') : Renamed ρ (.thrown v) (.thrown v')
  | misuse (cause cause' : Misuse) : Renamed ρ (.misuse cause) (.misuse cause')

/-- True if both attempts succeed with results that belong together, or fail with errors of one
kind. -/
inductive Attempt.Renamed (ρ : Renaming) {α β : Type} (R : α → β → Prop) :
    Attempt α → Attempt β → Prop
  | ok {a : α} {b : β} (results : R a b) : Renamed ρ R (.ok a) (.ok b)
  | error {e e' : MachineError} (errors : e.Renamed ρ e') : Renamed ρ R (.error e) (.error e')

/-- True if execution goes on in the same way. -/
inductive Flow.Renamed (ρ : Renaming) : Flow → Flow → Prop
  | proceed : Renamed ρ .proceed .proceed
  | jump (target : Label) : Renamed ρ (.jump target) (.jump target)
  | call (kind : InvokeKind) (method : MethodRef) {args args' : List Value}
      (arguments : List.Forall₂ (Value.Renamed ρ) args args') :
      Renamed ρ (.call kind method args) (.call kind method args')
  | leave {result result' : Option Value} (results : Option.Rel (Value.Renamed ρ) result result') :
      Renamed ρ (.leave result) (.leave result')

/-- True if two runs have come from worlds that were the same but for addresses to such worlds
again, with a property of the pairs of addresses by now. -/
def World.Renamed.Onward (ρ : Renaming) (w w' u u' : World) (P : Renaming → Prop) : Prop :=
  ∃ ρ', World.Matching ρ ρ' w w' u u' ∧ u.Renamed ρ' u' ∧ P ρ'

/-- True if the frames have the given locals, and stacks that are the same but for addresses. -/
structure ValueFrame.Alike (ρ : Renaming) (locals locals' : List Value) (f f' : ValueFrame) :
    Prop where
  locals : f.locals = locals
  locals' : f'.locals = locals'
  stack : List.Forall₂ (Value.Renamed ρ) f.stack f'.stack

namespace Attempt.Renamed

variable {ρ : Renaming} {α β γ δ : Type} {R : α → β → Prop} {S : γ → δ → Prop}

/-- Attempts that belong together go on to attempts that belong together. -/
theorem bind {x : Attempt α} {y : Attempt β} {f : α → Attempt γ} {g : β → Attempt δ}
    (h : Attempt.Renamed ρ R x y) (hfg : ∀ a b, R a b → Attempt.Renamed ρ S (f a) (g b)) :
    Attempt.Renamed ρ S (x >>= f) (y >>= g) := by
  cases h with
  | ok results => exact hfg _ _ results
  | error errors => exact .error errors

theorem misuse (cause cause' : Misuse) :
    Attempt.Renamed ρ R (.error (.misuse cause)) (.error (.misuse cause')) :=
  .error (.misuse cause cause')

end Attempt.Renamed

variable {ρ : Renaming} {w w' : World} {v v' u u' : Value} {f f' : ValueFrame}
  {locals locals' : List Value}

namespace Value.Renamed

theorem ofOrdering (nanIsGreater : Bool) (ordering : Option Ordering) :
    (Value.ofOrdering nanIsGreater ordering).Renamed ρ (.ofOrdering nanIsGreater ordering) :=
  @refl_of_kind ρ _ .int (kind_ofOrdering nanIsGreater ordering)

theorem negate (h : v.Renamed ρ v') :
    Attempt.Renamed ρ (Value.Renamed ρ) v.negate v'.negate := by
  cases h with
  | null | object => exact .misuse _ _
  | int n => exact .ok (.int _)
  | long n => exact .ok (.long _)
  | float word => exact .ok (.float _)
  | double word => exact .ok (.double _)

theorem convert (h : v.Renamed ρ v') (target : NumericKind) :
    Attempt.Renamed ρ (Value.Renamed ρ) (v.convert target) (v'.convert target) := by
  cases h with
  | null | object => exact .misuse _ _
  | int n | long n => exact .ok (refl_of_kind (kind_ofInt ..))
  | float word | double word => exact .ok (refl_of_kind (kind_ofWord ..))

theorem compare (hu : u.Renamed ρ u') (hv : v.Renamed ρ v') :
    Attempt.Renamed ρ Eq (u.compare? v) (u'.compare? v') := by
  cases hu <;> cases hv <;> first | exact .ok rfl | exact .misuse _ _

theorem perform (op : BinaryOp) (kind : NumericKind) (hu : u.Renamed ρ u') (hv : v.Renamed ρ v') :
    Attempt.Renamed ρ (Value.Renamed ρ) (op.perform kind u v) (op.perform kind u' v') := by
  have same {x : Except MachineError Value} (h : ∀ r, x = .ok r → r.Renamed ρ r) :
      Attempt.Renamed ρ (Value.Renamed ρ) x x := by
    cases x with
    | ok r => exact .ok (h r rfl)
    | error e => exact .error (.same e)
  have ints (a b : Int32) : Attempt.Renamed ρ (Value.Renamed ρ) (Value.int <$> op.onInts a b)
      (Value.int <$> op.onInts a b) := by
    cases op.onInts a b with
    | ok n => exact .ok (.int n)
    | error e => exact .error (.same e)
  have longs (a b : Int64) : Attempt.Renamed ρ (Value.Renamed ρ) (Value.long <$> op.onLongs a b)
      (Value.long <$> op.onLongs a b) := by
    cases op.onLongs a b with
    | ok n => exact .ok (.long n)
    | error e => exact .error (.same e)
  cases hu with
  | int a =>
      cases hv with
      | int b =>
          cases kind with
          | int => exact ints a b
          | _ => exact .misuse _ _
      | _ => cases kind <;> exact .misuse _ _
  | long a =>
      cases hv with
      | int b =>
          cases kind with
          | long =>
              simp only [BinaryOp.perform]
              split
              · exact longs a b.toInt64
              · exact .misuse _ _
          | _ => exact .misuse _ _
      | long b =>
          cases kind with
          | long =>
              simp only [BinaryOp.perform]
              split
              · exact .misuse _ _
              · exact longs a b
          | _ => exact .misuse _ _
      | _ => cases kind <;> exact .misuse _ _
  | float a =>
      cases hv with
      | float b =>
          cases kind with
          | float =>
              simp only [BinaryOp.perform]
              cases op.onWords? .single a.toNat b.toNat with
              | some word => exact .ok (.float _)
              | none => exact .misuse _ _
          | _ => exact .misuse _ _
      | _ => cases kind <;> exact .misuse _ _
  | double a =>
      cases hv with
      | double b =>
          cases kind with
          | double =>
              simp only [BinaryOp.perform]
              cases op.onWords? .double a.toNat b.toNat with
              | some word => exact .ok (.double _)
              | none => exact .misuse _ _
          | _ => exact .misuse _ _
      | _ => cases kind <;> exact .misuse _ _
  | null | object => cases kind <;> exact .misuse _ _

/-- What stands at one place of two arrays that belong together. -/
theorem getD {values values' : Array Value}
    (h : List.Forall₂ (Value.Renamed ρ) values.toList values'.toList) (place : Nat) :
    (values.getD place .null).Renamed ρ (values'.getD place .null) := by
  rw [Array.getD_eq_getD_getElem?, Array.getD_eq_getD_getElem?, ← Array.getElem?_toList,
    ← Array.getElem?_toList]
  by_cases hplace : place < values.toList.length
  · obtain ⟨u, hu, hr⟩ := getElem?_of_forall₂ h
      (List.getElem?_eq_getElem (h.length_eq ▸ hplace))
    rw [hu, List.getElem?_eq_getElem (h.length_eq ▸ hplace)]
    exact hr
  · rw [List.getElem?_eq_none (Nat.not_lt.1 hplace),
      List.getElem?_eq_none (h.length_eq ▸ Nat.not_lt.1 hplace)]
    exact .null

end Value.Renamed

/-- Arrays of zeros are the same on both sides. -/
theorem Object.Renamed.zeros (element : ValueType) (count : Nat) :
    (Object.array element (Array.replicate count (.zero element.kind))).Renamed ρ
      (.array element (Array.replicate count (.zero element.kind))) := by
  refine .array element ?_
  rw [Array.toList_replicate]
  induction count with
  | zero => exact .nil
  | succ count ih => exact .cons (.zero element.kind) ih

namespace ValueFrame.Alike

theorem push (h : f.Alike ρ locals locals' f') (hv : v.Renamed ρ v') :
    (f.push v).Alike ρ locals locals' (f'.push v') :=
  ⟨h.locals, h.locals', .cons hv h.stack⟩

theorem pushAll (h : f.Alike ρ locals locals' f') {values values' : List Value}
    (hv : List.Forall₂ (Value.Renamed ρ) values values') :
    (f.pushAll values).Alike ρ locals locals' (f'.pushAll values') := by
  induction hv generalizing f f' with
  | nil => exact h
  | cons hv _ ih => exact ih (h.push hv)

theorem pop (h : f.Alike ρ locals locals' f') :
    Attempt.Renamed ρ (fun x x' => x.1.Renamed ρ x'.1 ∧ x.2.Alike ρ locals locals' x'.2)
      f.pop f'.pop := by
  obtain ⟨l, s⟩ := f
  obtain ⟨l', s'⟩ := f'
  obtain ⟨hl, hl', hs⟩ := h
  cases hs with
  | nil => exact .misuse _ _
  | cons hv hs => exact .ok ⟨hv, hl, hl', hs⟩

theorem popInt (h : f.Alike ρ locals locals' f') :
    Attempt.Renamed ρ (fun x x' => x'.1 = x.1 ∧ x.2.Alike ρ locals locals' x'.2)
      f.popInt f'.popInt := by
  refine h.pop.bind ?_
  rintro ⟨v, f⟩ ⟨v', f'⟩ ⟨hv, hf⟩
  cases hv with
  | int n => exact .ok ⟨rfl, hf⟩
  | _ => exact .misuse _ _

theorem popMany (h : f.Alike ρ locals locals' f') (count : Nat) :
    Attempt.Renamed ρ
      (fun x x' => List.Forall₂ (Value.Renamed ρ) x.1 x'.1 ∧ x.2.Alike ρ locals locals' x'.2)
      (f.popMany count) (f'.popMany count) := by
  simp only [ValueFrame.popMany, ← h.stack.length_eq]
  split
  · exact .misuse _ _
  · exact .ok ⟨List.forall₂_reverse_iff.2 (List.forall₂_take count h.stack), h.locals, h.locals',
      List.forall₂_drop count h.stack⟩

/-- Values are moved on the operand stack in the same way. -/
theorem shuffle (h : f.Alike ρ locals locals' f') (i : Instruction) :
    Attempt.Renamed ρ (ValueFrame.Alike ρ locals locals') (f.shuffle i) (f'.shuffle i) := by
  cases i with
  | pop =>
      refine h.pop.bind ?_
      rintro ⟨a, f⟩ ⟨a', f'⟩ ⟨-, hf⟩
      exact .ok hf
  | pop2 =>
      refine h.pop.bind ?_
      rintro ⟨a, f⟩ ⟨a', f'⟩ ⟨ha, hf⟩
      dsimp only
      rw [ha.isWide]
      split
      · exact .ok hf
      · refine hf.pop.bind ?_
        rintro ⟨b, f⟩ ⟨b', f'⟩ ⟨-, hf⟩
        exact .ok hf
  | dup =>
      refine h.pop.bind ?_
      rintro ⟨a, f⟩ ⟨a', f'⟩ ⟨ha, hf⟩
      exact .ok (hf.pushAll (.cons ha (.cons ha .nil)))
  | dupX1 =>
      refine h.pop.bind ?_
      rintro ⟨a, f⟩ ⟨a', f'⟩ ⟨ha, hf⟩
      refine hf.pop.bind ?_
      rintro ⟨b, f⟩ ⟨b', f'⟩ ⟨hb, hf⟩
      exact .ok (hf.pushAll (.cons ha (.cons hb (.cons ha .nil))))
  | dupX2 =>
      refine h.pop.bind ?_
      rintro ⟨a, f⟩ ⟨a', f'⟩ ⟨ha, hf⟩
      refine hf.pop.bind ?_
      rintro ⟨b, f⟩ ⟨b', f'⟩ ⟨hb, hf⟩
      dsimp only
      rw [hb.isWide]
      split
      · exact .ok (hf.pushAll (.cons ha (.cons hb (.cons ha .nil))))
      · refine hf.pop.bind ?_
        rintro ⟨d, f⟩ ⟨d', f'⟩ ⟨hd, hf⟩
        exact .ok (hf.pushAll (.cons ha (.cons hd (.cons hb (.cons ha .nil)))))
  | dup2 =>
      refine h.pop.bind ?_
      rintro ⟨a, f⟩ ⟨a', f'⟩ ⟨ha, hf⟩
      dsimp only
      rw [ha.isWide]
      split
      · exact .ok (hf.pushAll (.cons ha (.cons ha .nil)))
      · refine hf.pop.bind ?_
        rintro ⟨b, f⟩ ⟨b', f'⟩ ⟨hb, hf⟩
        exact .ok (hf.pushAll (.cons hb (.cons ha (.cons hb (.cons ha .nil)))))
  | swap =>
      refine h.pop.bind ?_
      rintro ⟨a, f⟩ ⟨a', f'⟩ ⟨ha, hf⟩
      refine hf.pop.bind ?_
      rintro ⟨b, f⟩ ⟨b', f'⟩ ⟨hb, hf⟩
      exact .ok (hf.pushAll (.cons ha (.cons hb .nil)))
  | _ => exact .ok h

theorem compute (h : f.Alike ρ locals locals' f') (i : Instruction) :
    Attempt.Renamed ρ (ValueFrame.Alike ρ locals locals') (f.compute i) (f'.compute i) := by
  cases i with
  | binary op kind =>
      refine h.pop.bind ?_
      rintro ⟨right, f⟩ ⟨right', f'⟩ ⟨hright, hf⟩
      refine hf.pop.bind ?_
      rintro ⟨left, f⟩ ⟨left', f'⟩ ⟨hleft, hf⟩
      exact (hleft.perform op kind hright).bind fun v v' hv => .ok (hf.push hv)
  | negate kind =>
      refine h.pop.bind ?_
      rintro ⟨v, f⟩ ⟨v', f'⟩ ⟨hv, hf⟩
      exact hv.negate.bind fun v v' hv => .ok (hf.push hv)
  | convert source target =>
      refine h.pop.bind ?_
      rintro ⟨v, f⟩ ⟨v', f'⟩ ⟨hv, hf⟩
      exact (hv.convert target).bind fun v v' hv => .ok (hf.push hv)
  | compare kind nanIsGreater =>
      refine h.pop.bind ?_
      rintro ⟨right, f⟩ ⟨right', f'⟩ ⟨hright, hf⟩
      refine hf.pop.bind ?_
      rintro ⟨left, f⟩ ⟨left', f'⟩ ⟨hleft, hf⟩
      refine (hleft.compare hright).bind ?_
      rintro ordering _ rfl
      exact .ok (hf.push (.ofOrdering nanIsGreater ordering))
  | _ => exact .ok h

/-- Jumps go the same way, since references are the same on both sides or on none. -/
theorem branch (hw : w.Renamed ρ w') (h : f.Alike ρ locals locals' f') (i : Instruction) :
    Attempt.Renamed ρ (fun x x' => x.1.Renamed ρ x'.1 ∧ x.2.Alike ρ locals locals' x'.2)
      (f.branch i) (f'.branch i) := by
  have go {taken taken' : Bool} (htaken : taken' = taken) (target : Label) {f f' : ValueFrame}
      (hf : f.Alike ρ locals locals' f') :
      Attempt.Renamed ρ (fun x x' => x.1.Renamed ρ x'.1 ∧ x.2.Alike ρ locals locals' x'.2)
        (.ok (if taken then Flow.jump target else .proceed, f))
        (.ok (if taken' then Flow.jump target else .proceed, f')) := by
    subst htaken
    cases taken'
    · exact .ok ⟨.proceed, hf⟩
    · exact .ok ⟨.jump target, hf⟩
  cases i with
  | ifZero condition target =>
      refine h.popInt.bind ?_
      rintro ⟨_, f⟩ ⟨n, f'⟩ ⟨rfl, hf⟩
      exact go rfl target hf
  | ifCompare condition target =>
      refine h.popInt.bind ?_
      rintro ⟨right, f⟩ ⟨_, f'⟩ ⟨rfl, hf⟩
      refine hf.popInt.bind ?_
      rintro ⟨left, f⟩ ⟨_, f'⟩ ⟨rfl, hf⟩
      exact go rfl target hf
  | ifSame same target =>
      refine h.pop.bind ?_
      rintro ⟨right, f⟩ ⟨right', f'⟩ ⟨hright, hf⟩
      refine hf.pop.bind ?_
      rintro ⟨left, f⟩ ⟨left', f'⟩ ⟨hleft, hf⟩
      have hfound : (left'.kind = .reference && left' = right') =
          (left.kind = .reference && left = right) := by
        rw [hleft.kind, decide_eq_decide.2 (hw.eq_iff hleft hright)]
      dsimp only
      rw [hfound]
      split
      · exact .ok ⟨.jump target, hf⟩
      · exact .ok ⟨.proceed, hf⟩
  | ifNull null target =>
      refine h.pop.bind ?_
      rintro ⟨v, f⟩ ⟨v', f'⟩ ⟨hv, hf⟩
      dsimp only
      rw [hv.isNull]
      split
      · exact .ok ⟨.jump target, hf⟩
      · exact .ok ⟨.proceed, hf⟩
  | goto target => exact .ok ⟨.jump target, h⟩
  | tableSwitch low otherwise targets =>
      refine h.popInt.bind ?_
      rintro ⟨_, f⟩ ⟨n, f'⟩ ⟨rfl, hf⟩
      exact .ok ⟨.jump _, hf⟩
  | lookupSwitch otherwise cases =>
      refine h.popInt.bind ?_
      rintro ⟨_, f⟩ ⟨n, f'⟩ ⟨rfl, hf⟩
      exact .ok ⟨.jump _, hf⟩
  | _ => exact .ok ⟨.proceed, h⟩

theorem mono {ρ' : Renaming} (h : f.Alike ρ locals locals' f') (hρ : ∀ a a', ρ a a' → ρ' a a') :
    f.Alike ρ' locals locals' f' :=
  ⟨h.locals, h.locals', h.stack.imp fun _ _ h => h.mono hρ⟩

end ValueFrame.Alike

namespace World.Renamed

theorem stay (hw : w.Renamed ρ w') {P : Renaming → Prop} (h : P ρ) : Onward ρ w w' w w' P :=
  ⟨ρ, .refl ρ w w', hw, h⟩

theorem array (hw : w.Renamed ρ w') (hv : v.Renamed ρ v') :
    Attempt.Renamed ρ (fun x x' => ρ x.1 x'.1 ∧ x'.2.1 = x.2.1 ∧
      List.Forall₂ (Value.Renamed ρ) x.2.2.toList x'.2.2.toList) (w.array v) (w'.array v') := by
  cases hv with
  | null => exact .error (.same _)
  | object pair =>
      obtain ⟨o, o', ho, ho', hr⟩ := hw.objects _ _ pair
      simp only [World.array, ho, ho']
      cases hr with
      | array element elements => exact .ok ⟨pair, rfl, elements⟩
      | _ => exact .misuse _ _
  | _ => exact .misuse _ _

theorem checkInstance (hw : w.Renamed ρ w') (hv : v.Renamed ρ v') (expected : ValueType) :
    Attempt.Renamed ρ Eq (w.checkInstance v expected) (w'.checkInstance v' expected) := by
  simp only [World.checkInstance, hw.isInstance hv, hw.typeOf hv]
  split
  · exact .ok rfl
  · exact .error (.same _)

/-- A place is in both of two arrays that belong together, or in neither. -/
theorem checkIndex {values values' : Array Value}
    (h : List.Forall₂ (Value.Renamed ρ) values.toList values'.toList) (n : Int32) :
    Attempt.Renamed ρ Eq (Resumable.checkIndex n values.size) (Resumable.checkIndex n values'.size) := by
  rw [show values'.size = values.size from h.length_eq.symm]
  cases Resumable.checkIndex n values.size with
  | ok place => exact .ok rfl
  | error e => exact .error (.same e)

theorem access (hw : w.Renamed ρ w') (h : f.Alike ρ locals locals' f') (i : Instruction) :
    Attempt.Renamed ρ
      (fun x x' => Onward ρ w w' x.2 x'.2 fun ρ' => x.1.Alike ρ' locals locals' x'.1)
      (f.access w i) (f'.access w' i) := by
  cases i with
  | newArray element =>
      refine h.popInt.bind ?_
      rintro ⟨_, f⟩ ⟨n, f'⟩ ⟨rfl, hf⟩
      dsimp only
      split
      · exact .error (.same _)
      · obtain ⟨ρ', hmatching, hrenamed, hnew⟩ :=
          hw.allocate (Object.Renamed.zeros element n.toInt.toNat)
        exact .ok ⟨ρ', hmatching, hrenamed, (hf.mono hmatching.mono).push hnew⟩
  | arrayLength =>
      refine h.pop.bind ?_
      rintro ⟨v, f⟩ ⟨v', f'⟩ ⟨hv, hf⟩
      refine (hw.array hv).bind ?_
      rintro ⟨a, _, values⟩ ⟨a', element, values'⟩ ⟨-, rfl, hvalues⟩
      have hsize : values'.size = values.size := hvalues.length_eq.symm
      dsimp only
      rw [hsize]
      exact .ok (hw.stay (hf.push (.int _)))
  | arrayLoad kind =>
      refine h.popInt.bind ?_
      rintro ⟨_, f⟩ ⟨n, f'⟩ ⟨rfl, hf⟩
      refine hf.pop.bind ?_
      rintro ⟨v, f⟩ ⟨v', f'⟩ ⟨hv, hf⟩
      refine (hw.array hv).bind ?_
      rintro ⟨a, _, values⟩ ⟨a', element, values'⟩ ⟨-, rfl, hvalues⟩
      refine (checkIndex hvalues n).bind ?_
      rintro place _ rfl
      exact .ok (hw.stay (hf.push (.getD hvalues place)))
  | arrayStore kind =>
      refine h.pop.bind ?_
      rintro ⟨u, f⟩ ⟨u', f'⟩ ⟨hu, hf⟩
      refine hf.popInt.bind ?_
      rintro ⟨_, f⟩ ⟨n, f'⟩ ⟨rfl, hf⟩
      refine hf.pop.bind ?_
      rintro ⟨v, f⟩ ⟨v', f'⟩ ⟨hv, hf⟩
      refine (hw.array hv).bind ?_
      rintro ⟨a, _, values⟩ ⟨a', element, values'⟩ ⟨pair, rfl, hvalues⟩
      refine (hw.checkInstance hu element).bind ?_
      rintro _ _ rfl
      refine (checkIndex hvalues n).bind ?_
      rintro place _ rfl
      exact .ok ⟨ρ, matching_setElement pair place u u', hw.setElement pair hu place, hf⟩
  | checkCast type =>
      refine h.pop.bind ?_
      rintro ⟨v, f⟩ ⟨v', f'⟩ ⟨hv, hf⟩
      refine (hw.checkInstance hv type).bind ?_
      rintro _ _ rfl
      exact .ok (hw.stay (hf.push hv))
  | instanceOf type =>
      refine h.pop.bind ?_
      rintro ⟨v, f⟩ ⟨v', f'⟩ ⟨hv, hf⟩
      refine .ok (hw.stay (hf.push ?_))
      rw [hv.isNull, hw.isInstance hv]
      exact .int _
  | _ => exact .ok (hw.stay h)

end World.Renamed

/-- The local that the instruction works on, if it works on one. -/
def Instruction.local? : Instruction → Option Nat
  | .load _ index | .store _ index | .increment index _ => some index.toNat
  | _ => none

/-- Instructions that use no local do the same to frames whose stacks are the same but for
addresses. -/
theorem World.Renamed.execute (hw : w.Renamed ρ w') (h : f.Alike ρ locals locals' f')
    {i : Instruction} (hi : i.local? = none) :
    Attempt.Renamed ρ (fun x x' => Onward ρ w w' x.2.2 x'.2.2 fun ρ' =>
        x.1.Renamed ρ' x'.1 ∧ x.2.1.Alike ρ' locals locals' x'.2.1)
      (f.execute w i) (f'.execute w' i) := by
  cases i with
  | load | store | increment => cases hi
  | label | nop => exact .ok (hw.stay ⟨.proceed, h⟩)
  | const constant =>
      cases constant with
      | null => exact .ok (hw.stay ⟨.proceed, h.push .null⟩)
      | int n => exact .ok (hw.stay ⟨.proceed, h.push (.int n)⟩)
      | long n => exact .ok (hw.stay ⟨.proceed, h.push (.long n)⟩)
      | float word => exact .ok (hw.stay ⟨.proceed, h.push (.float word)⟩)
      | double word => exact .ok (hw.stay ⟨.proceed, h.push (.double word)⟩)
      | string s =>
          obtain ⟨ρ', hmatching, hrenamed, hnew⟩ := hw.allocate (.string s)
          exact .ok ⟨ρ', hmatching, hrenamed, .proceed, (h.mono hmatching.mono).push hnew⟩
  | pop | pop2 | dup | dupX1 | dupX2 | dup2 | swap =>
      exact (h.shuffle _).bind fun f f' hf => .ok (hw.stay ⟨.proceed, hf⟩)
  | binary | negate | convert | compare =>
      exact (h.compute _).bind fun f f' hf => .ok (hw.stay ⟨.proceed, hf⟩)
  | ifZero | ifCompare | ifSame | ifNull | goto | tableSwitch | lookupSwitch =>
      refine (h.branch hw _).bind ?_
      rintro ⟨flow, f⟩ ⟨flow', f'⟩ ⟨hflow, hf⟩
      exact .ok (hw.stay ⟨hflow, hf⟩)
  | jumpSubroutine | returnSubroutine => exact .error (.same _)
  | invoke kind method =>
      refine (h.popMany _).bind ?_
      rintro ⟨args, f⟩ ⟨args', f'⟩ ⟨hargs, hf⟩
      exact .ok (hw.stay ⟨.call kind method hargs, hf⟩)
  | newArray | arrayLength | arrayLoad | arrayStore | checkCast | instanceOf =>
      refine (hw.access h _).bind ?_
      rintro ⟨f, u⟩ ⟨f', u'⟩ ⟨ρ', hmatching, hrenamed, hf⟩
      exact .ok ⟨ρ', hmatching, hrenamed, .proceed, hf⟩
  | throw =>
      refine h.pop.bind ?_
      rintro ⟨v, f⟩ ⟨v', f'⟩ ⟨hv, -⟩
      dsimp only
      rw [hv.isNull]
      split
      · exact .error (.same _)
      · exact .error (.thrown hv)
  | monitorEnter | monitorExit =>
      refine h.pop.bind ?_
      rintro ⟨v, f⟩ ⟨v', f'⟩ ⟨hv, hf⟩
      dsimp only
      rw [hv.isNull]
      split
      · exact .error (.same _)
      · exact .ok (hw.stay ⟨.proceed, hf⟩)
  | leave kind =>
      cases kind with
      | none => exact .ok (hw.stay ⟨.leave .none, h⟩)
      | some kind =>
          refine h.pop.bind ?_
          rintro ⟨v, f⟩ ⟨v', f'⟩ ⟨hv, hf⟩
          exact .ok (hw.stay ⟨.leave (.some hv), hf⟩)

end Resumable
