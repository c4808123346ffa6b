import Resumable.Proofs.Passages
import Resumable.Proofs.RenamedExecution
import Resumable.Proofs.Snapshots

/-!
# Saving and restoring values

The code that saves a frame makes an array for the operand stack and one for the locals, and puts
the values in, primitives in boxes.  The code that restores a frame gets the same values out.  All
objects that are made on the way are new, and nothing else gets to know of them.
-/

namespace Resumable

namespace World

variable {known known' : Nat → Prop} {w w' u u' : World} {v cell : Value} {array : Nat}

/-- True if a cell of an array holds the value.  A primitive is in a box of which nothing else
knows. -/
def Stored (known : Nat → Prop) (w : World) (v cell : Value) : Prop :=
  match v.kind.numeric? with
  | some _ => ∃ b, cell = .object b ∧ w.object? b = some (.box v) ∧ ¬ known b
  | none => cell = v

/-- True if the cells hold the values of which the frame values tell anything but that they're null,
and nulls for the other ones. -/
structure Holds (known : Nat → Prop) (w : World) (types : List FrameValue) (values : List Value)
    (cells : Array Value) : Prop where
  stored : ∀ (k : Nat) (t : FrameValue), types[k]? = some t → t ≠ .top → t ≠ .null →
    ∃ v cell, values[k]? = some v ∧ cells[k]? = some cell ∧ w.Stored known v cell
  absent : ∀ (k : Nat) (t : FrameValue), types[k]? = some t → t = .top ∨ t = .null →
    cells[k]? = some .null

/-- True if there's an array of which nothing else knows that holds the values, and has a cell for
each.  Its length is an int. -/
def Saved (known : Nat → Prop) (w : World) (types : List FrameValue) (values : List Value)
    (array : Nat) : Prop :=
  ¬ known array ∧ ∃ cells, w.object? array = some (.array .root cells) ∧
    cells.size = types.length ∧ types.length < 2147483648 ∧ w.Holds known types values cells

/-- True if code that gets at known objects only may have changed the world so: what's known by then
was known before or is new, and all other objects are what they were. -/
structure Spares (known known' : Nat → Prop) (w u : World) : Prop where
  fresh : ∀ a, known' a → known a ∨ w.objects.size ≤ a
  kept : ∀ a o, ¬ known a → w.object? a = some o → u.object? a = some o
  proceeds : w.Proceeds u

/-- True if nothing has changed but that there are new objects. -/
structure Grows (w u : World) : Prop where
  objects : ∀ a o, w.object? a = some o → u.object? a = some o
  capabilities : u.capabilities = w.capabilities
  journal : u.journal = w.journal

/-- True if nothing has changed but that there are new objects, and what's in one array. -/
structure Fills (array : Nat) (w u : World) : Prop where
  objects : ∀ a o, a ≠ array → w.object? a = some o → u.object? a = some o
  size : w.objects.size ≤ u.objects.size
  capabilities : u.capabilities = w.capabilities
  journal : u.journal = w.journal

/-- New objects have no partners. -/
theorem Renamed.extends {ρ : Renaming} (hw : w.Renamed ρ w')
    (objects : ∀ a o, w'.object? a = some o → u'.object? a = some o)
    (journal : u'.journal = w'.journal) : w.Renamed ρ u' := by
  refine ⟨hw.injective, fun a a' ha => ?_, journal.trans hw.journal⟩
  obtain ⟨o, o', ho, ho', hr⟩ := hw.objects a a' ha
  exact ⟨o, o', ho, objects a' o' ho', hr⟩

namespace Grows

theorem refl (w : World) : w.Grows w := ⟨fun _ _ h => h, rfl, rfl⟩

theorem trans (h : w.Grows u) (k : u.Grows u') : w.Grows u' :=
  ⟨fun a o ho => k.objects a o (h.objects a o ho), k.capabilities.trans h.capabilities,
    k.journal.trans h.journal⟩

theorem evolves (h : w.Grows u) : w.Evolves u := fun a o ho => ⟨o, h.objects a o ho, rfl⟩

theorem allocate (w : World) (o : Object) : w.Grows (w.allocate o).2 := by
  refine ⟨fun a o' ho => ?_, rfl, rfl⟩
  rw [object?_allocate, if_neg (Nat.ne_of_lt (lt_size_of_object? ho)), ho]

theorem proceeds (h : w.Grows u) : w.Proceeds u := fun a o ho => ⟨o, h.objects a o ho, .same o⟩

theorem spares (h : w.Grows u) (known : Nat → Prop) : Spares known known w u :=
  ⟨fun _ ha => .inl ha, fun a o _ ho => h.objects a o ho, h.proceeds⟩

end Grows

namespace Fills

theorem refl (array : Nat) (w : World) : w.Fills array w :=
  ⟨fun _ _ _ h => h, Nat.le_refl _, rfl, rfl⟩

theorem trans (h : w.Fills array u) (k : u.Fills array u') : w.Fills array u' :=
  ⟨fun a o hne ho => k.objects a o hne (h.objects a o hne ho), Nat.le_trans h.size k.size,
    k.capabilities.trans h.capabilities, k.journal.trans h.journal⟩

end Fills

theorem Grows.fills (h : w.Grows u) (array : Nat) : w.Fills array u :=
  ⟨fun a o _ ho => h.objects a o ho, h.evolves.size_le, h.capabilities, h.journal⟩

/-- Making an array and filling it leaves everything else as it was. -/
theorem Fills.grows {o : Object} (h : (w.allocate o).2.Fills w.objects.size u) : w.Grows u := by
  refine ⟨fun a o' ho => ?_, h.capabilities, h.journal⟩
  exact h.objects a o' (Nat.ne_of_lt (lt_size_of_object? ho)) ((Grows.allocate w o).objects a o' ho)

theorem Fills.setElement (w : World) (array index : Nat) (v : Value) :
    w.Fills array (w.setElement array index v) := by
  refine ⟨fun a o hne ho => ?_, (evolves_setElement w array index v).size_le, rfl, rfl⟩
  rw [object?_setElement, if_neg hne, ho]

theorem Stored.fills {element : ValueType} {cells : Array Value} (hv : w.Stored known v cell)
    (ho : w.object? array = some (.array element cells)) (h : w.Fills array u) :
    u.Stored known v cell := by
  simp only [Stored] at hv ⊢
  split at hv
  · obtain ⟨b, hcell, hb, hunknown⟩ := hv
    refine ⟨b, hcell, h.objects b _ ?_ hb, hunknown⟩
    rintro rfl
    rw [ho] at hb
    cases hb
  · exact hv

/-- An unknown object stays as it is, and unknown. -/
theorem Spares.unknown (h : Spares known known' w u) {a : Nat} {o : Object}
    (ho : w.object? a = some o) (ha : ¬ known a) : u.object? a = some o ∧ ¬ known' a := by
  refine ⟨h.kept a o ha ho, fun ha' => ?_⟩
  rcases h.fresh a ha' with hknown | hle
  · exact ha hknown
  · exact absurd (lt_size_of_object? ho) (Nat.not_lt.2 hle)

theorem Stored.spares (hv : w.Stored known v cell) (h : Spares known known' w u) :
    u.Stored known' v cell := by
  simp only [Stored] at hv ⊢
  split at hv
  · obtain ⟨b, hcell, hb, hunknown⟩ := hv
    exact ⟨b, hcell, h.unknown hb hunknown⟩
  · exact hv

/-- What has been saved stays saved. -/
theorem Saved.spares {types : List FrameValue} {values : List Value}
    (hs : w.Saved known types values array) (h : Spares known known' w u) :
    u.Saved known' types values array := by
  obtain ⟨hunknown, cells, ho, hsize, hroom, hcells⟩ := hs
  obtain ⟨ho', hunknown'⟩ := h.unknown ho hunknown
  refine ⟨hunknown', cells, ho', hsize, hroom, fun k t ht htop hnull => ?_, hcells.absent⟩
  obtain ⟨v, cell, hv, hcell, hstored⟩ := hcells.stored k t ht htop hnull
  exact ⟨v, cell, hv, hcell, hstored.spares h⟩

/-- The reference that stands for a value in an array of references. -/
def boxed (w : World) (v : Value) : Value × World :=
  match v.kind.numeric? with
  | some _ => w.allocate (.box v)
  | none => (v, w)

theorem grows_boxed (w : World) (v : Value) : w.Grows (w.boxed v).2 := by
  simp only [boxed]
  split
  · exact .allocate w _
  · exact .refl w

theorem stored_boxed (w : World) (v : Value) (hfresh : ¬ known w.objects.size) :
    (w.boxed v).2.Stored known v (w.boxed v).1 := by
  simp only [Stored, boxed]
  split
  · refine ⟨w.objects.size, rfl, ?_, hfresh⟩
    rw [object?_allocate, if_pos rfl]
  · rfl

/-- What stands for a value can be put into any array of references. -/
theorem isInstance_boxed (w : World) (v : Value) : (w.boxed v).2.isInstance (w.boxed v).1 .root := by
  simp only [boxed]
  cases v <;> rfl

theorem Stored.grows (hv : w.Stored known v cell) (h : w.Grows u) : u.Stored known v cell := by
  simp only [Stored] at hv ⊢
  split at hv
  · obtain ⟨b, hcell, hb, hunknown⟩ := hv
    exact ⟨b, hcell, h.objects b _ hb, hunknown⟩
  · exact hv

theorem Saved.grows {types : List FrameValue} {values : List Value}
    (hs : w.Saved known types values array) (h : w.Grows u) : u.Saved known types values array := by
  obtain ⟨hunknown, cells, ho, hsize, hroom, hcells⟩ := hs
  refine ⟨hunknown, cells, h.objects array _ ho, hsize, hroom, fun k t ht htop hnull => ?_,
    hcells.absent⟩
  obtain ⟨v, cell, hv, hcell, hstored⟩ := hcells.stored k t ht htop hnull
  exact ⟨v, cell, hv, hcell, hstored.grows h⟩

theorem Has.kind? {t : FrameValue} (h : w.Has v t) (htop : t ≠ .top) : t.kind? = some v.kind := by
  cases t with
  | top => exact absurd rfl htop
  | null =>
      obtain rfl : v = .null := h
      rfl
  | reference type => exact congrArg some h.1.symm
  | _ => exact h

end World

namespace Snapshot

open Machine World

variable {m : Machine} {d : Method} {t : SlotTable} {known : Nat → Prop} {w : World}
  {own locals locals' stack values : List Value} {c s l x v : Value} {array index : Nat}
  {cells : Array Value}

theorem lookup_box (k : NumericKind) :
    Library.natives.lookup k.box = some (Library.native Library.box) := by
  cases k <;> rfl

theorem lookup_unbox (k : NumericKind) :
    Library.natives.lookup k.unbox = some (Library.native Library.unbox) := by
  cases k <;> rfl

theorem crosses_boxTop (hm : m.Equipped) (v : Value) :
    m.Crosses (boxTop v.kind) (⟨locals, v :: stack⟩, w)
      (⟨locals, (w.boxed v).1 :: stack⟩, (w.boxed v).2) := by
  simp only [boxTop, boxed]
  cases v.kind.numeric? with
  | none => exact .nil m _
  | some k =>
      exact .library [v] hm rfl (lookup_box k) rfl rfl

theorem checkIndex_ofNat {length : Nat} (h : index < length) (hlength : length < 2147483648) :
    checkIndex (Int32.ofNat index) length = .ok index := by
  have hint : (Int32.ofNat index).toInt = index := Int32.toInt_ofNat_of_lt (by omega)
  simp only [checkIndex, hint]
  rw [if_pos (by omega)]
  rfl

/-- The arrays that frames are saved in aren't longer than frames. -/
theorem crosses_arrayStore (hm : m.Equipped) (ho : w.object? array = some (.array .root cells))
    (hindex : index < cells.size) (hsize : cells.size < 2147483648) (hv : w.isInstance v .root) :
    m.Crosses [.arrayStore .reference]
      (⟨locals, v :: .int (Int32.ofNat index) :: .object array :: stack⟩, w)
      (⟨locals, stack⟩, w.setElement array index v) := by
  refine .single hm.unlimited ?_
  have harray : w.array (.object array) = .ok (array, .root, cells) := by simp [World.array, ho]
  exact ValueFrame.execute_arrayStore harray hv (checkIndex_ofNat hindex hsize)

theorem object?_setElement_self (ho : w.object? array = some (.array .root cells)) :
    (w.setElement array index v).object? array =
      some (.array .root (cells.setIfInBounds index v)) := by
  rw [object?_setElement, if_pos rfl, ho]
  rfl

/-- What putting a value into a cell of an array comes to. -/
structure Puts (known : Nat → Prop) (w u : World) (array index : Nat) (cells cells' : Array Value)
    (v : Value) : Prop where
  fills : w.Fills array u
  object : u.object? array = some (.array .root cells')
  size : cells'.size = cells.size
  others : ∀ k, k ≠ index → cells'[k]? = cells[k]?
  stored : ∃ cell, cells'[index]? = some cell ∧ u.Stored known v cell

/-- Putting what stands for a value into a cell. -/
theorem puts_boxed (ho : w.object? array = some (.array .root cells)) (hindex : index < cells.size)
    (hfresh : ¬ known w.objects.size) (v : Value) :
    Puts known w ((w.boxed v).2.setElement array index (w.boxed v).1) array index cells
      (cells.setIfInBounds index (w.boxed v).1) v := by
  have ho' := (grows_boxed w v).objects array _ ho
  have hset := Fills.setElement (w.boxed v).2 array index (w.boxed v).1
  refine ⟨((grows_boxed w v).fills array).trans hset, object?_setElement_self ho', by simp, ?_, ?_⟩
  · intro k hk
    rw [Array.getElem?_setIfInBounds_ne (Ne.symm hk)]
  · refine ⟨_, Array.getElem?_setIfInBounds_self_of_lt hindex, ?_⟩
    exact (stored_boxed w v hfresh).fills ho' hset

theorem getElem?_slot_of {index : UInt16} {k : Nat} {slots : List Value}
    (h : index.toNat = own.length + k) : (own ++ slots)[index.toNat]? = slots[k]? := by
  rw [h, getElem?_slot]

/-- Storing into one of the slots of the resumable method's own code. -/
theorem crosses_storeSlot (hm : m.Equipped) {index : UInt16} {k : Nat} {slots : List Value}
    (hindex : index.toNat = own.length + k) (hk : k < slots.length) :
    m.Crosses [storeReference index] (⟨own ++ slots, v :: stack⟩, w)
      (⟨own ++ slots.set k v, stack⟩, w) := by
  have hstore : m.Crosses [storeReference index] (⟨own ++ slots, v :: stack⟩, w)
      (⟨(own ++ slots).set index.toNat v, stack⟩, w) :=
    .store hm.unlimited (by rw [hindex, List.length_append]; omega)
  rwa [hindex, set_slot] at hstore

theorem crosses_storeScratch (hm : m.Equipped) (ht : t.Follows d own.length) :
    m.Crosses [storeReference t.scratch] (⟨own ++ [c, s, l, x], v :: stack⟩, w)
      (⟨own ++ [c, s, l, v], stack⟩, w) := crosses_storeSlot hm ht.scratch (by simp)

theorem crosses_storeStackArray (hm : m.Equipped) (ht : t.Follows d own.length) :
    m.Crosses [storeReference t.stackArray] (⟨own ++ [c, s, l, x], v :: stack⟩, w)
      (⟨own ++ [c, v, l, x], stack⟩, w) := crosses_storeSlot hm ht.stackArray (by simp)

theorem crosses_storeLocalsArray (hm : m.Equipped) (ht : t.Follows d own.length) :
    m.Crosses [storeReference t.localsArray] (⟨own ++ [c, s, l, x], v :: stack⟩, w)
      (⟨own ++ [c, s, v, x], stack⟩, w) := crosses_storeSlot hm ht.localsArray (by simp)

/-- Moving the value on top of the stack to the stack's array. -/
theorem crosses_saveTop {type : FrameValue} (hm : m.Equipped) (ht : t.Follows d own.length)
    (hkind : type.kind? = some v.kind) (ho : w.object? array = some (.array .root cells))
    (hindex : index < cells.size) (hsize : cells.size < 2147483648) :
    m.Crosses (saveTop t index type) (⟨own ++ [c, .object array, l, x], v :: stack⟩, w)
      (⟨own ++ [c, .object array, l, (w.boxed v).1], stack⟩,
        (w.boxed v).2.setElement array index (w.boxed v).1) := by
  simp only [saveTop, hkind]
  refine (crosses_boxTop hm v).append ?_
  refine (crosses_storeScratch hm ht).cons ?_
  refine (Crosses.load hm.unlimited (getElem?_slot_of (k := 1) ht.stackArray)).cons ?_
  refine (Crosses.const hm.unlimited _).cons ?_
  refine (Crosses.load hm.unlimited (getElem?_slot_of (k := 3) ht.scratch)).cons ?_
  exact crosses_arrayStore hm ((grows_boxed w v).objects array _ ho) hindex hsize
    (isInstance_boxed w v)

/-- Moving all values of the stack to its array. -/
theorem crosses_saveValues (hm : m.Equipped) (ht : t.Follows d own.length)
    {types : List FrameValue}
    (hkinds : List.Forall₂ (fun v type => type.kind? = some v.kind) values types)
    (ho : w.object? array = some (.array .root cells)) (hroom : types.length ≤ cells.size)
    (hsize : cells.size < 2147483648) (hfresh : ∀ b, w.objects.size ≤ b → ¬ known b) (x : Value) :
    ∃ u cells' x', m.Crosses (saveValues t types) (⟨own ++ [c, .object array, l, x], values⟩, w)
        (⟨own ++ [c, .object array, l, x'], []⟩, u) ∧
      w.Fills array u ∧ u.object? array = some (.array .root cells') ∧
      cells'.size = cells.size ∧ (∀ k, types.length ≤ k → cells'[k]? = cells[k]?) ∧
      ∀ (k : Nat) (v : Value), values.reverse[k]? = some v →
        ∃ cell, cells'[k]? = some cell ∧ u.Stored known v cell := by
  induction hkinds generalizing w cells x with
  | nil => exact ⟨w, cells, x, .nil m _, .refl array w, ho, rfl, fun _ _ => rfl, by simp⟩
  | @cons v type values types hkind hkinds ih =>
      have hlength := hkinds.length_eq
      have hindex : types.length < cells.size := hroom
      have hputs := puts_boxed ho hindex (hfresh _ (Nat.le_refl _)) v
      have htop : m.Crosses (saveTop t types.length type)
          (⟨own ++ [c, .object array, l, x], v :: values⟩, w)
          (⟨own ++ [c, .object array, l, (w.boxed v).1], values⟩,
            (w.boxed v).2.setElement array types.length (w.boxed v).1) :=
        crosses_saveTop hm ht hkind ho hindex hsize
      obtain ⟨u, cells', x', hrest, hfills, ho', hsame, hothers, hstored⟩ := ih hputs.object
        (by rw [hputs.size]; omega) (by rw [hputs.size]; exact hsize)
        (fun b hb => hfresh b (Nat.le_trans hputs.fills.size hb)) (w.boxed v).1
      refine ⟨u, cells', x', htop.append hrest, hputs.fills.trans hfills, ho',
        hsame.trans hputs.size, ?_, ?_⟩
      · intro k hk
        rw [List.length_cons] at hk
        rw [hothers k (by omega), hputs.others k (by omega)]
      · intro k v' hv'
        rw [List.reverse_cons] at hv'
        by_cases hlt : k < values.reverse.length
        · rw [List.getElem?_append_left hlt] at hv'
          exact hstored k v' hv'
        · obtain rfl : k = types.length := by
            have := (List.getElem?_eq_some_iff.1 hv').1
            simp only [List.length_append, List.length_reverse, List.length_cons,
              List.length_nil] at this hlt
            omega
          obtain rfl : v = v' := by
            rw [List.getElem?_append_right (Nat.not_lt.1 hlt)] at hv'
            simpa [hlength] using hv'
          obtain ⟨cell, hcell, hv⟩ := hputs.stored
          refine ⟨cell, ?_, hv.fills hputs.object hfills⟩
          rw [hothers _ (Nat.le_refl _), hcell]

/-- Making an array of references and storing it. -/
theorem crosses_newArray (hm : m.Equipped) {locals' : Value → List Value} {length : Nat}
    (hlength : length < 2147483648) {index : UInt16} (hstore : ∀ v w, m.Crosses [storeReference index]
      (⟨locals, v :: stack⟩, w) (⟨locals' v, stack⟩, w)) :
    m.Crosses (newArray length index) (⟨locals, stack⟩, w)
      (⟨locals' (w.newArray .root length).1, stack⟩, (w.newArray .root length).2) := by
  refine (Crosses.const hm.unlimited _).cons ((Crosses.single hm.unlimited ?_).cons (hstore _ _))
  have hint : (Int32.ofNat length).toInt = length := Int32.toInt_ofNat_of_lt (by omega)
  have hnot : ¬ Int32.ofNat length < 0 := by
    rw [Int32.lt_iff_toInt_lt, hint]
    simp
  simp only [ValueFrame.execute, ValueFrame.access, constant, ValueFrame.popInt_cons,
    Except.ok_bind, hnot, if_false, hint]
  rfl

/-- Moving the stack to a new array. -/
theorem crosses_saveStack (hm : m.Equipped) (ht : t.Follows d own.length)
    {types : List FrameValue}
    (hvalues : List.Forall₂ (fun v type => type ≠ .top ∧ w.Has v type) values types)
    (hlength : types.length < 2147483648) (hfresh : ∀ b, w.objects.size ≤ b → ¬ known b) :
    ∃ u array x', m.Crosses (saveStack t types) (⟨own ++ [c, s, l, x], values⟩, w)
        (⟨own ++ [c, .object array, l, x'], []⟩, u) ∧
      w.Grows u ∧ u.Saved known types.reverse values.reverse array := by
  have hkinds : List.Forall₂ (fun v (type : FrameValue) => type.kind? = some v.kind) values types :=
    hvalues.imp fun _ _ h => h.2.kind? h.1
  have hnew := crosses_newArray (w := w) hm hlength fun v w =>
    (crosses_storeStackArray hm ht :
      m.Crosses _ (⟨own ++ [c, s, l, x], v :: values⟩, w) (⟨own ++ [c, v, l, x], values⟩, w))
  have ho : (w.newArray .root types.length).2.object? w.objects.size =
      some (.array .root (Array.replicate types.length .null)) := by
    exact (object?_allocate w _ _).trans (if_pos rfl)
  obtain ⟨u, cells, x', hcross, hfills, ho', hsize, -, hstored⟩ :=
    crosses_saveValues (c := c) (l := l) hm ht hkinds ho (by simp) (by simpa using hlength)
      (fun b hb => hfresh b (Nat.le_trans (Grows.allocate w _).evolves.size_le hb)) x
  refine ⟨u, w.objects.size, x', hnew.append hcross, hfills.grows,
    hfresh _ (Nat.le_refl _), cells, ho', by simp [hsize], by simpa using hlength,
    fun k type htype _ _ => ?_, fun k type htype habsent => ?_⟩
  · obtain ⟨v, hv, -⟩ := getElem?_of_forall₂ (List.rel_reverse hvalues) htype
    obtain ⟨cell, hcell, hv'⟩ := hstored k v hv
    exact ⟨v, cell, hv, hcell, hv'⟩
  · obtain ⟨v, hv, htop, hhas⟩ := getElem?_of_forall₂ (List.rel_reverse hvalues) htype
    obtain ⟨cell, hcell, hv'⟩ := hstored k v hv
    obtain rfl : type = .null := habsent.resolve_left htop
    obtain rfl : v = .null := hhas
    rw [hcell]
    exact congrArg some hv'

/-- Taking a primitive out of its box. -/
theorem crosses_unbox (hm : m.Equipped) {k : NumericKind} {b : Nat} (hk : v.kind = k.toValueKind)
    (hb : w.object? b = some (.box v)) :
    m.Crosses [.checkCast (.object k.boxTypeName), .invoke .virtual k.unbox]
      (⟨locals, .object b :: stack⟩, w) (⟨locals, v :: stack⟩, w) := by
  have hinstance : w.isInstance (.object b) (.object k.boxTypeName) := by
    have htype : w.typeOf (.object b) = .object k.boxTypeName := by
      simp only [World.typeOf, hb, Option.map_some, Option.getD_some, Object.type, hk]
      cases k <;> rfl
    rw [isInstance_object, htype]
    exact ⟨rfl, ValueType.isAssignableFrom_refl _ rfl⟩
  refine (Crosses.single hm.unlimited (ValueFrame.execute_checkCast hinstance)).cons ?_
  have hoperation : Library.unbox w [.object b] = .ok (some v, w) := by
    simp only [Library.unbox, Library.receiver, List.head?_cons, Option.bind_some, referent?, hb,
      Except.ok_bind]
    rfl
  exact .library [.object b] hm rfl (lookup_unbox k) rfl hoperation

/-- Pushing a saved value. -/
theorem crosses_loadElement (hm : m.Equipped) {slot : UInt16} {type : FrameValue}
    (hslot : locals[slot.toNat]? = some (.object array))
    (ho : w.object? array = some (.array .root cells)) (hsize : cells.size < 2147483648)
    (hcell : type ≠ .null → ∃ cell, cells[index]? = some cell ∧ w.Stored known v cell)
    (htop : type ≠ .top) (hv : w.Has v type) :
    m.Crosses (loadElement slot index type) (⟨locals, stack⟩, w) (⟨locals, v :: stack⟩, w) := by
  simp only [loadElement]
  split
  · rename_i hnull
    subst hnull
    obtain rfl : v = .null := hv
    exact .const hm.unlimited .null
  · rename_i hnull
    obtain ⟨cell, hcell, hstored⟩ := hcell hnull
    have hindex := (Array.getElem?_eq_some_iff.1 hcell).1
    have harray : w.array (.object array) = .ok (array, .root, cells) := by simp [World.array, ho]
    have hget : cells.getD index .null = cell := by
      rw [Array.getD_eq_getD_getElem?, hcell]
      rfl
    have hload : m.Crosses [loadReference slot, pushInt index, .arrayLoad .reference]
        (⟨locals, stack⟩, w) (⟨locals, cell :: stack⟩, w) := by
      refine (Crosses.load hm.unlimited hslot).cons ((Crosses.const hm.unlimited _).cons ?_)
      refine .single hm.unlimited ?_
      rw [← hget]
      exact ValueFrame.execute_arrayLoad harray (checkIndex_ofNat hindex hsize)
    refine hload.append ?_
    cases type with
    | top => exact absurd rfl htop
    | null => exact absurd rfl hnull
    | reference type =>
        obtain rfl : cell = v := by
          simp only [Stored, hv.1, ValueKind.numeric?] at hstored
          exact hstored
        exact .single hm.unlimited (ValueFrame.execute_checkCast hv.2)
    | int | long | float | double =>
        have hkind : v.kind = _ := (Option.some.inj hv).symm
        simp only [Stored, hkind, ValueKind.numeric?] at hstored
        obtain ⟨b, rfl, hb, -⟩ := hstored
        exact crosses_unbox hm hkind hb

/-- Pushing the saved values of the stack. -/
theorem crosses_loadStack (hm : m.Equipped) {types : List FrameValue}
    (hslot : locals[t.stackArray.toNat]? = some (.object array))
    (ho : w.object? array = some (.array .root cells)) (hsize : cells.size < 2147483648)
    (hv : List.Forall₂ (fun v type => type ≠ .top ∧ w.Has v type) values types)
    (hcells : w.Holds known types.reverse values.reverse cells) :
    m.Crosses (loadStack t types) (⟨locals, stack⟩, w) (⟨locals, values ++ stack⟩, w) := by
  induction hv with
  | nil => exact .nil m _
  | @cons v type values types hv hvalues ih =>
      have hlength := hvalues.length_eq
      rw [List.reverse_cons, List.reverse_cons] at hcells
      have hbelow : w.Holds known types.reverse values.reverse cells := by
        refine ⟨fun k type' htype htop hnull => ?_, fun k type' htype => ?_⟩
        · have hk := (List.getElem?_eq_some_iff.1 htype).1
          obtain ⟨v', cell, hv', hcell⟩ := hcells.stored k type'
            (by rw [List.getElem?_append_left hk, htype]) htop hnull
          rw [List.getElem?_append_left (by simpa [hlength] using hk)] at hv'
          exact ⟨v', cell, hv', hcell⟩
        · have hk := (List.getElem?_eq_some_iff.1 htype).1
          exact hcells.absent k type' (by rw [List.getElem?_append_left hk, htype])
      refine (ih hbelow).append ?_
      refine @crosses_loadElement m known w locals _ v array _ cells hm _ type hslot ho hsize
        (fun hnull => ?_) hv.1 hv.2
      obtain ⟨v', cell, hv', hcell⟩ := hcells.stored types.length type (by simp) hv.1 hnull
      obtain rfl : v = v' := by simpa [← hlength] using hv'
      exact ⟨cell, hcell⟩

/-- Copying one local to the array of the locals. -/
theorem crosses_saveLocal (hm : m.Equipped) (ht : t.Follows d own.length) {type : FrameValue}
    (hown : own.length ≤ 65535) (hv : own[index]? = some v)
    (hkind : type.kind? = some v.kind) (hnull : type ≠ .null)
    (ho : w.object? array = some (.array .root cells)) (hindex : index < cells.size)
    (hsize : cells.size < 2147483648) :
    m.Crosses (saveLocal t index type) (⟨own ++ [c, s, .object array, x], stack⟩, w)
      (⟨own ++ [c, s, .object array, x], stack⟩,
        (w.boxed v).2.setElement array index (w.boxed v).1) := by
  have hlt := (List.getElem?_eq_some_iff.1 hv).1
  have hlocal : (own ++ [c, s, .object array, x])[(UInt16.ofNat index).toNat]? = some v := by
    rw [UInt16.toNat_ofNat', Nat.mod_eq_of_lt (by omega), List.getElem?_append_left hlt, hv]
  have hload : m.Crosses [loadReference t.localsArray, pushInt index,
        .load v.kind (UInt16.ofNat index)] (⟨own ++ [c, s, .object array, x], stack⟩, w)
      (⟨own ++ [c, s, .object array, x],
        v :: .int (Int32.ofNat index) :: .object array :: stack⟩, w) := by
    refine (Crosses.load hm.unlimited (getElem?_slot_of (k := 2) ht.localsArray)).cons ?_
    exact (Crosses.const hm.unlimited _).cons (Crosses.load hm.unlimited hlocal)
  simp only [saveLocal, hkind, hnull, if_false]
  refine (hload.append (crosses_boxTop hm v)).append ?_
  exact crosses_arrayStore hm ((grows_boxed w v).objects array _ ho) hindex hsize
    (isInstance_boxed w v)

/-- True if the cells from one index on have been filled with the locals of which something other
than null is known, and the other cells are as they were. -/
structure SavedFrom (known : Nat → Prop) (u : World) (own : List Value) (types : List FrameValue)
    (n : Nat) (cells cells' : Array Value) : Prop where
  size : cells'.size = cells.size
  before : ∀ k, k < n → cells'[k]? = cells[k]?
  stored : ∀ (k : Nat) (type : FrameValue), types[k]? = some type → type ≠ .top → type ≠ .null →
    ∃ v cell, own[n + k]? = some v ∧ cells'[n + k]? = some cell ∧ u.Stored known v cell
  absent : ∀ (k : Nat) (type : FrameValue), types[k]? = some type → type = .top ∨ type = .null →
    cells'[n + k]? = cells[n + k]?

namespace SavedFrom

variable {u : World} {types : List FrameValue} {type : FrameValue} {n : Nat}
  {cells₁ cells' : Array Value}

theorem nil (n : Nat) (cells : Array Value) : SavedFrom known u own [] n cells cells :=
  ⟨rfl, fun _ _ => rfl, by simp, by simp⟩

/-- A local of which nothing is known, or that it's null, isn't copied. -/
theorem skip (h : SavedFrom known u own types (n + 1) cells cells')
    (hskip : type = .top ∨ type = .null) : SavedFrom known u own (type :: types) n cells cells' := by
  refine ⟨h.size, fun k hk => h.before k (by omega), fun k type' htype htop hnull => ?_,
    fun k type' htype habsent => ?_⟩
  · cases k with
    | zero =>
        obtain rfl : type = type' := by simpa using htype
        exact absurd hskip (by simp [htop, hnull])
    | succ k =>
        rw [Nat.add_comm k, ← Nat.add_assoc]
        exact h.stored k type' (by simpa using htype) htop hnull
  · cases k with
    | zero => exact h.before n (Nat.lt_succ_self n)
    | succ k =>
        rw [Nat.add_comm k, ← Nat.add_assoc]
        exact h.absent k type' (by simpa using htype) habsent

/-- A local that's copied fills its own cell. -/
theorem cons (h : SavedFrom known u own types (n + 1) cells₁ cells')
    (hskip : ¬ (type = .top ∨ type = .null)) (hsize : cells₁.size = cells.size)
    (hothers : ∀ k, k ≠ n → cells₁[k]? = cells[k]?) {cell : Value} (hv : own[n]? = some v)
    (hcell : cells₁[n]? = some cell) (hstored : u.Stored known v cell) :
    SavedFrom known u own (type :: types) n cells cells' := by
  refine ⟨h.size.trans hsize, fun k hk => ?_, fun k type' htype htop hnull => ?_,
    fun k type' htype habsent => ?_⟩
  · rw [h.before k (by omega), hothers k (by omega)]
  · cases k with
    | zero => exact ⟨v, cell, hv, by rw [Nat.add_zero, h.before n (by omega), hcell], hstored⟩
    | succ k =>
        rw [Nat.add_comm k, ← Nat.add_assoc]
        exact h.stored k type' (by simpa using htype) htop hnull
  · cases k with
    | zero =>
        obtain rfl : type = type' := by simpa using htype
        exact absurd habsent hskip
    | succ k =>
        rw [Nat.add_comm k, ← Nat.add_assoc, h.absent k type' (by simpa using htype) habsent,
          hothers _ (by omega)]

end SavedFrom

/-- Copying the locals from one index on to their array. -/
theorem crosses_flatMap_saveLocal (hm : m.Equipped) (ht : t.Follows d own.length)
    (hown : own.length ≤ 65535) {types : List FrameValue} {n : Nat}
    (hkinds : ∀ (k : Nat) (type : FrameValue), types[k]? = some type → type ≠ .top →
      ∃ v, own[n + k]? = some v ∧ type.kind? = some v.kind)
    (ho : w.object? array = some (.array .root cells)) (hroom : n + types.length ≤ cells.size)
    (hsize : cells.size < 2147483648) (hfresh : ∀ b, w.objects.size ≤ b → ¬ known b) :
    ∃ u cells', m.Crosses ((types.zipIdx n).flatMap fun vi => saveLocal t vi.2 vi.1)
        (⟨own ++ [c, s, .object array, x], stack⟩, w)
        (⟨own ++ [c, s, .object array, x], stack⟩, u) ∧
      w.Fills array u ∧ u.object? array = some (.array .root cells') ∧
      SavedFrom known u own types n cells cells' := by
  induction types generalizing w cells n with
  | nil => exact ⟨w, cells, .nil m _, .refl array w, ho, .nil n cells⟩
  | cons type types ih =>
      rw [List.length_cons] at hroom
      have hrest : ∀ (k : Nat) (type : FrameValue), types[k]? = some type → type ≠ .top →
          ∃ v, own[n + 1 + k]? = some v ∧ type.kind? = some v.kind := by
        intro k type' htype htop
        rw [Nat.add_assoc, Nat.add_comm 1 k]
        exact hkinds (k + 1) type' (by simpa using htype) htop
      simp only [List.zipIdx_cons, List.flatMap_cons]
      by_cases hskip : type = .top ∨ type = .null
      · have hcode : saveLocal t n type = [] := by
          rcases hskip with rfl | rfl <;> rfl
        obtain ⟨u, cells', hcross, hfills, ho', hsaved⟩ := ih hrest ho (by omega) hsize hfresh
        exact ⟨u, cells', hcode ▸ hcross, hfills, ho', hsaved.skip hskip⟩
      · obtain ⟨htop, hnull⟩ := not_or.1 hskip
        obtain ⟨v, hv, hkind⟩ := hkinds 0 type (by simp) htop
        have hlt : n < cells.size := by omega
        have hputs := puts_boxed ho hlt (hfresh _ (Nat.le_refl _)) v
        have hhead : m.Crosses (saveLocal t n type)
            (⟨own ++ [c, s, .object array, x], stack⟩, w)
            (⟨own ++ [c, s, .object array, x], stack⟩,
              (w.boxed v).2.setElement array n (w.boxed v).1) :=
          crosses_saveLocal hm ht hown hv hkind hnull ho hlt hsize
        obtain ⟨u, cells', hcross, hfills, ho', hsaved⟩ :=
          ih hrest hputs.object (by rw [hputs.size]; omega) (by rw [hputs.size]; exact hsize)
            fun b hb => hfresh b (Nat.le_trans hputs.fills.size hb)
        obtain ⟨cell, hcell, hvalue⟩ := hputs.stored
        exact ⟨u, cells', hhead.append hcross, hputs.fills.trans hfills, ho', hsaved.cons hskip
          hputs.size hputs.others hv hcell (hvalue.fills hputs.object hfills)⟩

/-- Copying the locals to a new array. -/
theorem crosses_saveLocals (hm : m.Equipped) (ht : t.Follows d own.length)
    (hown : own.length ≤ 65535) {types : List FrameValue} (hlength : types.length < 2147483648)
    (hkinds : ∀ (k : Nat) (type : FrameValue), types[k]? = some type → type ≠ .top →
      ∃ v, own[k]? = some v ∧ type.kind? = some v.kind)
    (hfresh : ∀ b, w.objects.size ≤ b → ¬ known b) :
    ∃ u array, m.Crosses (saveLocals t types) (⟨own ++ [c, s, l, x], stack⟩, w)
        (⟨own ++ [c, s, .object array, x], stack⟩, u) ∧
      w.Grows u ∧ u.Saved known types own array := by
  have hnew := crosses_newArray (w := w) hm hlength fun v w =>
    (crosses_storeLocalsArray hm ht :
      m.Crosses _ (⟨own ++ [c, s, l, x], v :: stack⟩, w) (⟨own ++ [c, s, v, x], stack⟩, w))
  have ho : (w.newArray .root types.length).2.object? w.objects.size =
      some (.array .root (Array.replicate types.length .null)) :=
    (object?_allocate w _ _).trans (if_pos rfl)
  obtain ⟨u, cells, hvalues, hfills, ho', hsaved⟩ :=
    @crosses_flatMap_saveLocal m d t known _ own stack c s x _ _ hm ht hown types 0
      (by simpa using hkinds) ho (by simp) (by simpa using hlength)
      fun b hb => hfresh b (Nat.le_trans (Grows.allocate w _).evolves.size_le hb)
  refine ⟨u, w.objects.size, hnew.append hvalues, hfills.grows, hfresh _ (Nat.le_refl _), cells,
    ho', by simp [hsaved.size], hlength, fun k type htype htop hnull => ?_,
    fun k type htype htype' => ?_⟩
  · have := hsaved.stored k type htype htop hnull
    rwa [Nat.zero_add] at this
  · have := hsaved.absent k type htype htype'
    rw [Nat.zero_add] at this
    rw [this, Array.getElem?_replicate, if_pos (List.getElem?_eq_some_iff.1 htype).1]

/-- Storing the saved value of one local. -/
theorem crosses_loadLocal (hm : m.Equipped) (ht : t.Follows d own.length) {type : FrameValue}
    (hown : own.length ≤ 65535) (hindex : index < own.length)
    (ho : w.object? array = some (.array .root cells)) (hsize : cells.size < 2147483648)
    (hcell : type ≠ .null → ∃ cell, cells[index]? = some cell ∧ w.Stored known v cell)
    (htop : type ≠ .top) (hv : w.Has v type) :
    m.Crosses (loadLocal t index type) (⟨own ++ [c, s, .object array, x], stack⟩, w)
      (⟨own.set index v ++ [c, s, .object array, x], stack⟩, w) := by
  have hload : m.Crosses (loadElement t.localsArray index type)
      (⟨own ++ [c, s, .object array, x], stack⟩, w)
      (⟨own ++ [c, s, .object array, x], v :: stack⟩, w) :=
    crosses_loadElement hm (getElem?_slot_of (k := 2) ht.localsArray) ho hsize hcell htop hv
  have hlocal : (UInt16.ofNat index).toNat = index := by
    rw [UInt16.toNat_ofNat', Nat.mod_eq_of_lt (by omega)]
  have hstore : m.Crosses [.store v.kind (UInt16.ofNat index)]
      (⟨own ++ [c, s, .object array, x], v :: stack⟩, w)
      (⟨(own ++ [c, s, .object array, x]).set (UInt16.ofNat index).toNat v, stack⟩, w) :=
    .store hm.unlimited (by rw [hlocal, List.length_append]; omega)
  rw [hlocal, List.set_append_left _ _ hindex] at hstore
  simp only [loadLocal, hv.kind? htop]
  exact hload.append hstore

/-- Storing the saved values of the locals from one index on. -/
theorem crosses_flatMap_loadLocal (hm : m.Equipped) (ht : t.Follows d own.length)
    (hown : own.length ≤ 65535) {types : List FrameValue} {n : Nat}
    (hroom : n + types.length ≤ own.length)
    (ho : w.object? array = some (.array .root cells)) (hsize : cells.size < 2147483648)
    (hcells : ∀ (k : Nat) (type : FrameValue), types[k]? = some type → type ≠ .top →
      ∃ v, values[n + k]? = some v ∧ w.Has v type ∧
        (type ≠ .null → ∃ cell, cells[n + k]? = some cell ∧ w.Stored known v cell)) :
    ∃ own', m.Crosses ((types.zipIdx n).flatMap fun vi => loadLocal t vi.2 vi.1)
        (⟨own ++ [c, s, .object array, x], stack⟩, w)
        (⟨own' ++ [c, s, .object array, x], stack⟩, w) ∧
      own'.length = own.length ∧ (∀ k, k < n → own'[k]? = own[k]?) ∧
      ∀ (k : Nat) (type : FrameValue), types[k]? = some type → type ≠ .top →
        own'[n + k]? = values[n + k]? := by
  induction types generalizing own n with
  | nil => exact ⟨own, .nil m _, rfl, fun _ _ => rfl, by simp⟩
  | cons type types ih =>
      rw [List.length_cons] at hroom
      have hrest : ∀ (k : Nat) (type : FrameValue), types[k]? = some type → type ≠ .top →
          ∃ v, values[n + 1 + k]? = some v ∧ w.Has v type ∧
            (type ≠ .null → ∃ cell, cells[n + 1 + k]? = some cell ∧ w.Stored known v cell) := by
        intro k type' htype htop
        rw [Nat.add_assoc, Nat.add_comm 1 k]
        exact hcells (k + 1) type' (by simpa using htype) htop
      simp only [List.zipIdx_cons, List.flatMap_cons]
      by_cases htop : type = .top
      · subst htop
        obtain ⟨own', hcross, hlength, hbefore, hloaded⟩ := ih ht hown (by omega) hrest
        refine ⟨own', hcross, hlength, fun k hk => hbefore k (by omega), ?_⟩
        intro k type' htype htop
        cases k with
        | zero => exact absurd (by simpa using htype.symm) htop
        | succ k =>
            have := hloaded k type' (by simpa using htype) htop
            rwa [Nat.add_assoc, Nat.add_comm 1 k] at this
      · obtain ⟨v, hv, hhas, hcell⟩ := hcells 0 type (by simp) htop
        have hhead : m.Crosses (loadLocal t n type) (⟨own ++ [c, s, .object array, x], stack⟩, w)
            (⟨own.set n v ++ [c, s, .object array, x], stack⟩, w) :=
          crosses_loadLocal hm ht hown (by omega) ho hsize hcell htop hhas
        obtain ⟨own', hcross, hlength, hbefore, hloaded⟩ :=
          @ih (own.set n v) (by rwa [List.length_set]) (by rwa [List.length_set]) (n + 1)
            (by rw [List.length_set]; omega) hrest
        rw [List.length_set] at hlength
        refine ⟨own', hhead.append hcross, hlength, ?_, ?_⟩
        · intro k hk
          rw [hbefore k (by omega), List.getElem?_set_ne (by omega)]
        · intro k type' htype htop'
          cases k with
          | zero =>
              rw [Nat.add_zero] at hv ⊢
              rw [hbefore n (by omega), List.getElem?_set_self (by omega), hv]
          | succ k =>
              have := hloaded k type' (by simpa using htype) htop'
              rwa [Nat.add_assoc, Nat.add_comm 1 k] at this

/-- Storing the saved values of the locals. -/
theorem crosses_loadLocals (hm : m.Equipped) (ht : t.Follows d own.length)
    (hown : own.length ≤ 65535) {types : List FrameValue} (hroom : types.length ≤ own.length)
    (ho : w.object? array = some (.array .root cells)) (hsize : cells.size < 2147483648)
    (hv : ∀ (k : Nat) (type : FrameValue), types[k]? = some type → type ≠ .top →
      ∃ v, values[k]? = some v ∧ w.Has v type)
    (hcells : w.Holds known types values cells) :
    ∃ own', m.Crosses (loadLocals t types) (⟨own ++ [c, s, .object array, x], stack⟩, w)
        (⟨own' ++ [c, s, .object array, x], stack⟩, w) ∧
      own'.length = own.length ∧
      ∀ (k : Nat) (type : FrameValue), types[k]? = some type → type ≠ .top →
        own'[k]? = values[k]? := by
  obtain ⟨own', hcross, hlength, -, hloaded⟩ :=
    @crosses_flatMap_loadLocal m d t known w own stack values c s x array cells hm ht hown types 0
      (by omega) ho hsize fun k type htype htop => by
        obtain ⟨v, hv, hhas⟩ := hv k type htype htop
        refine ⟨v, by rwa [Nat.zero_add], hhas, fun hnull => ?_⟩
        obtain ⟨v', cell, hv', hcell, hstored⟩ := hcells.stored k type htype htop hnull
        obtain rfl : v = v' := Option.some.inj (hv.symm.trans hv')
        exact ⟨cell, by rwa [Nat.zero_add], hstored⟩
  refine ⟨own', hcross, hlength, fun k type htype htop => ?_⟩
  have := hloaded k type htype htop
  rwa [Nat.zero_add] at this

end Snapshot

end Resumable
