import Resumable.Proofs.RenamedExecution

/-!
# Frames with more locals

What an instruction does to a frame doesn't depend on local slots that it doesn't work on.  So it
does the same to a frame that has more of them, and leaves those as they are.
-/

namespace Resumable

/-- The frame with more locals after its own. -/
def ValueFrame.extend (f : ValueFrame) (slots : List Value) : ValueFrame :=
  { f with locals := f.locals ++ slots }

namespace ValueFrame

variable {f : ValueFrame} {w : World} (slots : List Value)

theorem push_extend (f : ValueFrame) (v : Value) :
    (f.extend slots).push v = (f.push v).extend slots := rfl

theorem pushAll_extend (f : ValueFrame) (values : List Value) :
    (f.extend slots).pushAll values = (f.pushAll values).extend slots := by
  induction values generalizing f with
  | nil => rfl
  | cons v values ih => exact ih (f.push v)

theorem pop_extend (f : ValueFrame) :
    (f.extend slots).pop = (fun x => (x.1, x.2.extend slots)) <$> f.pop := by
  obtain ⟨l, s⟩ := f
  cases s <;> rfl

theorem popInt_extend (f : ValueFrame) :
    (f.extend slots).popInt = (fun x => (x.1, x.2.extend slots)) <$> f.popInt := by
  simp only [popInt, pop_extend, bind_map_left, map_bind]
  congr 1
  funext x
  split <;> rfl

theorem popMany_extend (f : ValueFrame) (n : Nat) :
    (f.extend slots).popMany n = (fun x => (x.1, x.2.extend slots)) <$> f.popMany n := by
  simp only [popMany, extend]
  by_cases h : f.stack.length < n
  · simp only [h, if_true]
    rfl
  · simp only [h, if_false]
    rfl

theorem shuffle_extend (f : ValueFrame) (i : Instruction) :
    (f.extend slots).shuffle i = (·.extend slots) <$> f.shuffle i := by
  cases i <;> simp only [shuffle, pop_extend, bind_map_left, map_bind, pushAll_extend,
    map_pure, apply_ite]

theorem compute_extend (f : ValueFrame) (i : Instruction) :
    (f.extend slots).compute i = (·.extend slots) <$> f.compute i := by
  cases i <;> simp only [compute, pop_extend, bind_map_left, map_bind, push_extend, map_pure]

theorem branch_extend (f : ValueFrame) (i : Instruction) :
    (f.extend slots).branch i = (fun x => (x.1, x.2.extend slots)) <$> f.branch i := by
  cases i <;> simp only [branch, pop_extend, popInt_extend, bind_map_left, map_bind, map_pure]

theorem access_extend (f : ValueFrame) (i : Instruction) :
    (f.extend slots).access w i = (fun x => (x.1.extend slots, x.2)) <$> f.access w i := by
  cases i <;> simp only [access, pop_extend, popInt_extend, bind_map_left, map_bind, push_extend,
    map_pure, apply_ite]


/-- An instruction that works on a frame's own locals, or on none, does the same if there
are more. -/
theorem execute_extend (f : ValueFrame) {i : Instruction}
    (hi : ∀ k, i.local? = some k → k < f.locals.length) :
    (f.extend slots).execute w i =
      (fun x => (x.1, x.2.1.extend slots, x.2.2)) <$> f.execute w i := by
  have load_extend (k : Nat) (hk : k < f.locals.length) : (f.extend slots).load k = f.load k := by
    simp only [load, extend, List.getElem?_append_left hk]
  have store_extend (g : ValueFrame) (hg : g.locals = f.locals) (k : Nat) (hk : k < f.locals.length)
      (v : Value) : (g.extend slots).store k v = (·.extend slots) <$> g.store k v := by
    rw [← hg] at hk
    simp only [store, extend, List.length_append, Nat.lt_add_right _ hk, hk, if_true,
      List.set_append_left _ _ hk]
    rfl
  cases i with
  | load kind index =>
      simp only [execute, load_extend _ (hi _ rfl), map_bind]
      rfl
  | store kind index =>
      obtain ⟨locals, stack⟩ := f
      cases stack with
      | nil => rfl
      | cons v stack =>
          have hstore := store_extend ⟨locals, stack⟩ rfl _ (hi _ rfl) v
          simp only [extend] at hstore
          simp only [execute, extend, pop, Except.ok_bind, hstore, bind_map_left, map_bind]
          rfl
  | increment index delta =>
      simp only [execute, load_extend _ (hi _ rfl), map_bind]
      congr 1
      funext v
      cases v with
      | int n =>
          simp only [store_extend f rfl _ (hi _ rfl), bind_map_left, map_bind]
          rfl
      | _ => rfl
  | label | nop | const => rfl
  | pop | pop2 | dup | dupX1 | dupX2 | dup2 | swap =>
      simp only [execute, shuffle_extend, bind_map_left, map_bind]
      rfl
  | binary | negate | convert | compare =>
      simp only [execute, compute_extend, bind_map_left, map_bind]
      rfl
  | ifZero | ifCompare | ifSame | ifNull | goto | tableSwitch | lookupSwitch =>
      simp only [execute, branch_extend, bind_map_left, map_bind]
      rfl
  | jumpSubroutine | returnSubroutine => rfl
  | invoke kind method =>
      simp only [execute, popMany_extend, bind_map_left, map_bind]
      rfl
  | newArray | arrayLength | arrayLoad | arrayStore | checkCast | instanceOf =>
      simp only [execute, access_extend, bind_map_left, map_bind]
      rfl
  | throw =>
      simp only [execute, pop_extend, bind_map_left, map_bind]
      rfl
  | monitorEnter | monitorExit =>
      simp only [execute, pop_extend, bind_map_left, map_bind]
      congr 1
      funext x
      cases x.1.isNull <;> rfl
  | leave kind =>
      cases kind with
      | none => rfl
      | some kind =>
          simp only [execute, pop_extend, bind_map_left, map_bind]
          rfl

theorem length_entry (args : List Value) (n : Nat) : (entry args n).locals.length =
    max (args.flatMap fun v => if v.isWide then [v, .null] else [v]).length n := by
  simp only [entry, List.length_append, List.length_replicate]
  omega

/-- A method with more locals starts with more nulls. -/
theorem entry_add {args : List Value} {n : Nat} (h : (entry args n).locals.length = n) (k : Nat) :
    entry args (n + k) = (entry args n).extend (List.replicate k .null) := by
  rw [length_entry] at h
  have hle : (args.flatMap fun v => if v.isWide then [v, .null] else [v]).length ≤ n := by omega
  simp only [entry, extend, List.append_assoc, List.replicate_append_replicate]
  rw [Nat.sub_add_comm hle]

end ValueFrame

end Resumable
