import Resumable.Proofs.SnapshotRuns

/-!
# What resumable methods do with their capability

A resumable method looks at the capability's mode, and it pushes and pops its states.  The
capability itself stays in a slot all the time.
-/

namespace Resumable

namespace World

variable {w u : World} {v : Value} {n k : Nat}

/-- True if the value stands for the capability with the given number. -/
def Stands (w : World) (n : Nat) (v : Value) : Prop :=
  ∃ a, v = .object a ∧ w.object? a = some (.capability n)

theorem Stands.proceeds (h : w.Stands n v) (hw : w.Proceeds u) : u.Stands n v := by
  obtain ⟨a, hv, ha⟩ := h
  exact ⟨a, hv, hw.capability ha⟩

theorem cell_congr (h : u.capabilities = w.capabilities) (n : Nat) : u.cell n = w.cell n := by
  rw [cell, cell, h]

theorem cell_modifyCell_self (hn : n < w.capabilities.size)
    (f : CapabilityCell → CapabilityCell) : (w.modifyCell n f).cell n = f (w.cell n) := by
  simp [cell, modifyCell, hn, Array.getElem_modify]

/-- The world with a new state that has been pushed onto a capability. -/
def pushed (w : World) (n : Nat) (point : Int32) (stack locals : Value) : World :=
  (w.allocate (.state point stack locals)).2.modifyCell n fun cell => cell.push w.objects.size

/-- The world after the last state of a capability has been popped. -/
def popped (w : World) (n : Nat) : World :=
  w.modifyCell n fun _ =>
    { mode := if (w.cell n).states.tail.isEmpty then Capability.normal else (w.cell n).mode
      states := (w.cell n).states.tail }

/-- A capability that has states is in use. -/
theorem lt_size_of_states {state : Nat} {rest : List Nat} (h : (w.cell n).states = state :: rest) :
    n < w.capabilities.size := by
  refine Nat.lt_of_not_le fun hle => ?_
  simp [cell, hle, CapabilityCell.initial] at h

end World

namespace Snapshot

open Machine World

variable {m : Machine} {d : Method} {t : SlotTable} {w : World} {own stack : List Value}
  {c s l x : Value} {n : Nat}

theorem lookup_getMode :
    Library.natives.lookup Capability.getMode = some (Library.native Library.getMode) := rfl

theorem lookup_setMode :
    Library.natives.lookup Capability.setMode = some (Library.native Library.setMode) := rfl

theorem lookup_pushState :
    Library.natives.lookup Capability.pushState = some (Library.native Library.pushState) := rfl

theorem lookup_popState :
    Library.natives.lookup Capability.popState = some (Library.native Library.popState) := rfl

theorem lookup_createState :
    Library.natives.lookup Capability.createState = some (Library.native Library.createState) := rfl

theorem lookup_getPoint :
    Library.natives.lookup Capability.getPoint = some (Library.native Library.getPoint) := rfl

theorem lookup_getStack :
    Library.natives.lookup Capability.getStack = some (Library.native Library.getStack) := rfl

theorem lookup_getLocals :
    Library.natives.lookup Capability.getLocals = some (Library.native Library.getLocals) := rfl

theorem receiver_object {a : Nat} {o : Object} (ho : w.object? a = some o) (args : List Value) :
    Library.receiver w (.object a :: args) = .ok o := by
  simp [Library.receiver, referent?, ho]

theorem capability_of_stands (hc : w.Stands n c) (args : List Value) :
    Library.capability w (c :: args) = .ok n := by
  obtain ⟨a, rfl, ha⟩ := hc
  simp only [Library.capability, receiver_object ha, Except.ok_bind]
  rfl

theorem not_isNull_of_stands (hc : w.Stands n c) : c.isNull = false := by
  obtain ⟨a, rfl, -⟩ := hc
  rfl

theorem crosses_loadCapability (hm : m.Equipped) (ht : t.Follows d own.length) :
    m.Crosses [loadReference t.capability] (⟨own ++ [c, s, l, x], stack⟩, w)
      (⟨own ++ [c, s, l, x], c :: stack⟩, w) :=
  .load hm.unlimited (getElem?_slot_of (k := 0) ht.capability)

/-- Pushing the mode. -/
theorem crosses_getMode (hm : m.Equipped) (ht : t.Follows d own.length) (hc : w.Stands n c) :
    m.Crosses (getMode t) (⟨own ++ [c, s, l, x], stack⟩, w)
      (⟨own ++ [c, s, l, x], .int (w.cell n).mode :: stack⟩, w) := by
  refine (crosses_loadCapability hm ht).cons ?_
  have hoperation : Library.getMode w [c] = .ok (some (.int (w.cell n).mode), w) := by
    simp only [Library.getMode, capability_of_stands hc, Except.ok_bind]
    rfl
  exact .library [c] hm rfl lookup_getMode (by simp [not_isNull_of_stands hc]) hoperation

/-- Setting the mode. -/
theorem crosses_setMode (hm : m.Equipped) (ht : t.Follows d own.length) (hc : w.Stands n c)
    (mode : Int32) :
    m.Crosses (setMode t mode) (⟨own ++ [c, s, l, x], stack⟩, w)
      (⟨own ++ [c, s, l, x], stack⟩, w.modifyCell n fun cell => { cell with mode }) := by
  refine (crosses_loadCapability hm ht).cons ((Crosses.const hm.unlimited _).cons ?_)
  have hoperation : Library.setMode w [c, .int mode] =
      .ok (none, w.modifyCell n fun cell => { cell with mode }) := by
    simp only [Library.setMode, capability_of_stands hc, Except.ok_bind]
    rfl
  exact .library [c, .int mode] hm rfl lookup_setMode (by simp [not_isNull_of_stands hc]) hoperation

/-- Making a state of the arrays, on top of the capability that it's for. -/
theorem crosses_createState (hm : m.Equipped) (ht : t.Follows d own.length) (id : Nat) :
    m.Crosses ((pushState t id).take 5) (⟨own ++ [c, s, l, x], stack⟩, w)
      (⟨own ++ [c, s, l, x], .object w.objects.size :: c :: stack⟩,
        (w.allocate (.state (Int32.ofNat id) s l)).2) := by
  have hcreate : Library.createState w [.int (Int32.ofNat id), s, l] =
      .ok (some (.object w.objects.size), (w.allocate (.state (Int32.ofNat id) s l)).2) := rfl
  refine (crosses_loadCapability hm ht).cons ((Crosses.const hm.unlimited _).cons ?_)
  refine (Crosses.load hm.unlimited (getElem?_slot_of (k := 1) ht.stackArray)).cons ?_
  refine (Crosses.load hm.unlimited (getElem?_slot_of (k := 2) ht.localsArray)).cons ?_
  exact .library [.int (Int32.ofNat id), s, l] hm rfl lookup_createState rfl hcreate

/-- Pushing a state that has been made. -/
theorem pushState_of_allocate (hc : w.Stands n c) (point : Int32) (s l : Value) :
    Library.pushState (w.allocate (.state point s l)).2 [c, .object w.objects.size] =
      .ok (none, w.pushed n point s l) := by
  have hc' : (w.allocate (.state point s l)).2.Stands n c := hc.proceeds (.allocate w _)
  have hstate : (w.allocate (.state point s l)).2.object? w.objects.size =
      some (.state point s l) := by rw [object?_allocate, if_pos rfl]
  simp only [Library.pushState, Library.stateArgument, List.getElem?_cons_succ,
    List.getElem?_cons_zero, hstate, Except.ok_bind, capability_of_stands hc']
  rfl

/-- Taking the arrays out of a state that's on top of the stack. -/
theorem crosses_takeState (hm : m.Equipped) (ht : t.Follows d own.length) {a : Nat} {point : Int32}
    {stackArray localsArray : Value}
    (ha : w.object? a = some (.state point stackArray localsArray)) :
    m.Crosses ((popState t).drop 2) (⟨own ++ [c, s, l, x], .object a :: stack⟩, w)
      (⟨own ++ [c, stackArray, localsArray, .object a], stack⟩, w) := by
  have hstate : Library.methodState w [.object a] = .ok (point, stackArray, localsArray) := by
    simp only [Library.methodState, receiver_object ha, Except.ok_bind]
    rfl
  have hstack : Library.getStack w [.object a] = .ok (some stackArray, w) := by
    simp only [Library.getStack, hstate, Except.ok_bind]
    rfl
  have hlocals : Library.getLocals w [.object a] = .ok (some localsArray, w) := by
    simp only [Library.getLocals, hstate, Except.ok_bind]
    rfl
  have hscratch (s l : Value) : m.Crosses [loadReference t.scratch]
      (⟨own ++ [c, s, l, .object a], stack⟩, w)
      (⟨own ++ [c, s, l, .object a], .object a :: stack⟩, w) :=
    .load hm.unlimited (getElem?_slot_of (k := 3) ht.scratch)
  refine (crosses_storeScratch hm ht).cons ((hscratch s l).cons ?_)
  have hstack' : m.Crosses [.invoke .virtual Capability.getStack]
      (⟨own ++ [c, s, l, .object a], .object a :: stack⟩, w)
      (⟨own ++ [c, s, l, .object a], stackArray :: stack⟩, w) :=
    .library [.object a] hm rfl lookup_getStack rfl hstack
  refine hstack'.cons ((crosses_storeStackArray hm ht).cons ((hscratch stackArray l).cons ?_))
  have hlocals' : m.Crosses [.invoke .virtual Capability.getLocals]
      (⟨own ++ [c, stackArray, l, .object a], .object a :: stack⟩, w)
      (⟨own ++ [c, stackArray, l, .object a], localsArray :: stack⟩, w) :=
    .library [.object a] hm rfl lookup_getLocals rfl hlocals
  exact hlocals'.cons (crosses_storeLocalsArray hm ht)

/-- Popping the last state that was pushed. -/
theorem popState_of_states (hc : w.Stands n c) {a : Nat} {rest : List Nat}
    (hstates : (w.cell n).states = a :: rest) :
    Library.popState w [c] = .ok (some (.object a), w.popped n) := by
  simp only [Library.popState, capability_of_stands hc, Except.ok_bind, CapabilityCell.pop?,
    hstates, popped]
  rfl

/-- Popping a state and taking the arrays out of it. -/
theorem crosses_popState (hm : m.Equipped) (ht : t.Follows d own.length) (hc : w.Stands n c)
    {a : Nat} {rest : List Nat} {point : Int32} {stackArray localsArray : Value}
    (hstates : (w.cell n).states = a :: rest)
    (ha : w.object? a = some (.state point stackArray localsArray)) :
    m.Crosses (popState t) (⟨own ++ [c, s, l, x], stack⟩, w)
      (⟨own ++ [c, stackArray, localsArray, .object a], stack⟩, w.popped n) := by
  have hinvoke : m.Crosses [.invoke .virtual Capability.popState]
      (⟨own ++ [c, s, l, x], c :: stack⟩, w)
      (⟨own ++ [c, s, l, x], .object a :: stack⟩, w.popped n) :=
    .library [c] hm rfl lookup_popState (by simp [not_isNull_of_stands hc])
      (popState_of_states hc hstates)
  have htake : m.Crosses ((popState t).drop 2)
      (⟨own ++ [c, s, l, x], .object a :: stack⟩, w.popped n)
      (⟨own ++ [c, stackArray, localsArray, .object a], stack⟩, w.popped n) :=
    crosses_takeState hm ht ha
  exact (crosses_loadCapability hm ht).cons (hinvoke.cons htake)

/-- Pushing the number of the point that the state in the scratch slot is of. -/
theorem crosses_getPoint (hm : m.Equipped) (ht : t.Follows d own.length) {a : Nat} {point : Int32}
    {stackArray localsArray : Value}
    (ha : w.object? a = some (.state point stackArray localsArray)) :
    m.Crosses [loadReference t.scratch, .invoke .virtual Capability.getPoint]
      (⟨own ++ [c, s, l, .object a], stack⟩, w)
      (⟨own ++ [c, s, l, .object a], .int point :: stack⟩, w) := by
  have hstate : Library.methodState w [.object a] = .ok (point, stackArray, localsArray) := by
    simp only [Library.methodState, receiver_object ha, Except.ok_bind]
    rfl
  have hpoint : Library.getPoint w [.object a] = .ok (some (.int point), w) := by
    simp only [Library.getPoint, hstate, Except.ok_bind]
    rfl
  refine (Crosses.load hm.unlimited (getElem?_slot_of (k := 3) ht.scratch)).cons ?_
  exact .library [.object a] hm rfl lookup_getPoint rfl hpoint

end Snapshot

end Resumable
