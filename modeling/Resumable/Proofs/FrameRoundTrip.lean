import Resumable.Proofs.PointRuns
import Resumable.Proofs.WeaveTyping

/-!
# Saved frames come back as they were

Code that saves a frame leaves its locals alone and puts all that's known of them and of the operand
stack into two arrays that nothing else knows.  Wherever and whenever the arrays are loaded again,
the stack and the locals are what they were, as long as nobody has written to the arrays.
-/

namespace Resumable

/-- The slots for instrumentation code come right after those of a method that leaves room
for them. -/
theorem SlotTable.follows_make (access : AccessFlags) {maxLocals : UInt16}
    (room : maxLocals.toNat + extraSlots ≤ maxSlots) :
    ∃ d, (make access maxLocals).Follows d maxLocals.toNat := by
  let m : Method := ⟨"", ⟨[], none⟩, access, 0, maxLocals, .ofList [], []⟩
  let d : Method := { m with maxLocals := UInt16.ofNat (maxLocals.toNat + extraSlots) }
  have hd : d.Widens m := by
    refine ⟨rfl, ?_⟩
    have hroom : maxLocals.toNat + 4 ≤ 65535 := room
    have : d.maxLocals = UInt16.ofNat (maxLocals.toNat + 4) := rfl
    rw [this, UInt16.toNat_ofNat', Nat.mod_eq_of_lt (by omega)]
  have hlength : (List.replicate maxLocals.toNat FrameValue.top).length = maxLocals.toNat := by
    rw [List.length_replicate]
  exact ⟨d, hlength ▸ hd.follows room hlength⟩

namespace Snapshot

open Machine World

/-- Saving a frame keeps its locals, and records the frame in two new arrays: their cells hold the
values or boxes with them, and nulls where the analysis tells nothing but that.  While the objects
that have been made since stay as they are, the frame comes back from the arrays with the values
that it had, over whatever other locals. -/
theorem restores_saved {m : Machine} (hm : m.Equipped) (access : AccessFlags) {maxLocals : UInt16}
    (room : maxLocals.toNat + SlotTable.extraSlots ≤ maxSlots) {g : Frame}
    (hstack : g.stack.length < 2147483648) {w : World} {own slots values : List Value}
    (hown : own.length = maxLocals.toNat) (hslots : slots.length = SlotTable.extraSlots)
    (meets : ValueFrame.Meets w ⟨own, values⟩ g) (reload : Bool) :
    ∃ u c s l x, m.Crosses (saveFrame (.make access maxLocals) g reload) (⟨own ++ slots, values⟩, w)
        (⟨own ++ [c, s, l, x], if reload then values else []⟩, u) ∧
      w.Grows u ∧ u.Records (· < w.objects.size) g ⟨own, values⟩ s l ∧
      ∀ u', u.Proceeds u' →
        (∀ a o, w.objects.size ≤ a → u.object? a = some o → u'.object? a = some o) →
        ∀ (other : List Value) (c x : Value), other.length = maxLocals.toNat →
          ∃ own', m.Crosses (loadFrame (.make access maxLocals) g) (⟨other ++ [c, s, l, x], []⟩, u')
              (⟨own' ++ [c, s, l, x], values⟩, u') ∧ own'.length = maxLocals.toNat ∧
            ∀ (k : Nat) (type : FrameValue), g.locals[k]? = some type → type ≠ .top →
              own'[k]? = own[k]? := by
  obtain ⟨d, ht⟩ := SlotTable.follows_make access room
  obtain ⟨c, s₀, l₀, x₀, rfl⟩ : ∃ c s l x, slots = [c, s, l, x] := List.length_eq_four.1 hslots
  have hfit : own.length ≤ 65535 := by
    have := maxLocals.toNat_lt
    omega
  have ht' : (SlotTable.make access maxLocals).Follows d own.length := hown ▸ ht
  have hfresh : ∀ b, w.objects.size ≤ b → ¬ b < w.objects.size := fun b hb => Nat.not_lt.2 hb
  obtain ⟨u, s, l, x, hsave, hgrows, hrecords⟩ :=
    crosses_saveFrame (c := c) hm ht' hfit hstack meets hfresh reload s₀ l₀ x₀
  refine ⟨u, c, s, l, x, hsave, hgrows, hrecords, ?_⟩
  intro u' hproceeds hkept other c' x' hother
  have hspares : Spares (· < w.objects.size) (· < w.objects.size) u u' :=
    ⟨fun a ha => .inl ha, fun a o ha ho => hkept a o (Nat.not_lt.1 ha) ho, hproceeds⟩
  obtain ⟨own', hload, hlength, hloaded⟩ := crosses_loadFrame (c := c') (x := x') hm
    (hother ▸ ht : (SlotTable.make access maxLocals).Follows d other.length) (by omega)
    (hrecords.spares hspares) (hown.trans hother.symm)
  exact ⟨own', hload, hlength.trans hother, hloaded⟩

/-- Saving an int in a local and a double under a null. -/
theorem restores_saved_double : ∃ u c s l x,
    (Machine.new .standard).Crosses (saveFrame (.make .static 1) ⟨[.int], [.null, .double]⟩ false)
        (⟨[.int 7, .null, .null, .null, .null], [.null, .double 1]⟩, ⟨#[], #[], []⟩)
        (⟨[.int 7, c, s, l, x], []⟩, u) ∧
      u.Records (· < 0) ⟨[.int], [.null, .double]⟩ ⟨[.int 7], [.null, .double 1]⟩ s l := by
  have hm : (Machine.new .standard).Equipped := ⟨rfl, fun _ _ h => h⟩
  have hmeets : ValueFrame.Meets ⟨#[], #[], []⟩ ⟨[.int 7], [.null, .double 1]⟩
      ⟨[.int], [.null, .double]⟩ :=
    ⟨.cons ⟨by simp, rfl⟩ (.cons ⟨by simp, rfl⟩ .nil), .cons rfl .nil⟩
  obtain ⟨u, c, s, l, x, hsave, -, hrecords, -⟩ := @restores_saved _ hm .static 1 (by decide) _
    (by decide) _ _ [.null, .null, .null, .null] _ rfl rfl hmeets false
  exact ⟨u, c, s, l, x, hsave, hrecords⟩

end Snapshot

end Resumable
