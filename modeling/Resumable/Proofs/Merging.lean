import Mathlib.Order.Lattice
import Mathlib.Order.BoundedOrder.Basic
import Resumable.Proofs.FrameOrder

/-!
# Merging as a least upper bound

The values whose references are to reference types are a semilattice: assignability orders them, the
unknown value is the greatest one, and merging gives the least value above two.  So paths may join
in any order and any number of times.

Frames merge value by value.  Two frames don't merge if their stacks differ in height, or if nothing
but the unknown value is above two values at the same height.
-/

namespace Resumable

namespace FrameValue

/-- The values whose references are to reference types. -/
abbrev Proper := { v : FrameValue // v.IsProper }

instance : PartialOrder Proper where
  le a b := a.1.Below b.1
  le_refl a := .refl a.2
  le_trans _ _ _ h k := h.trans k
  le_antisymm _ _ h k := Subtype.ext (h.antisymm k)

instance : OrderTop Proper where
  top := ⟨top, by simp [IsProper]⟩
  le_top a := below_top a.1

instance : SemilatticeSup Proper where
  sup a b := ⟨a.1.merge b.1, isProper_merge a.2 b.2⟩
  le_sup_left a _ := isAssignableFrom_merge_left a.2
  le_sup_right _ b := isAssignableFrom_merge_right b.2
  sup_le _ _ _ h k := isAssignableFrom_merge h k

/-- True if what's known as one of the last two values can be used where the first one is expected,
and the first one wherever else both of them can be used. -/
structure LeastAbove (v a b : FrameValue) : Prop where
  left : v.isAssignableFrom a
  right : v.isAssignableFrom b
  least (c : FrameValue) : c.isAssignableFrom a → c.isAssignableFrom b → c.isAssignableFrom v

variable {a b c : FrameValue}

theorem leastAbove_merge (ha : a.IsProper) (hb : b.IsProper) : (a.merge b).LeastAbove a b where
  left := isAssignableFrom_merge_left ha
  right := isAssignableFrom_merge_right hb
  least _ := isAssignableFrom_merge

theorem merge_comm (ha : a.IsProper) (hb : b.IsProper) : a.merge b = b.merge a :=
  congrArg Subtype.val (sup_comm (⟨a, ha⟩ : Proper) ⟨b, hb⟩)

theorem merge_assoc (ha : a.IsProper) (hb : b.IsProper) (hc : c.IsProper) :
    (a.merge b).merge c = a.merge (b.merge c) :=
  congrArg Subtype.val (sup_assoc (⟨a, ha⟩ : Proper) ⟨b, hb⟩ ⟨c, hc⟩)

theorem merge_self (a : FrameValue) : a.merge a = a := if_pos rfl

/-- Two values have nothing in common if and only if nothing but the unknown value is above both. -/
theorem merge_eq_top_iff (ha : a.IsProper) (hb : b.IsProper) :
    a.merge b = top ↔ ∀ c : FrameValue, c.isAssignableFrom a → c.isAssignableFrom b → c = top := by
  constructor
  · intro htop c hca hcb
    apply eq_top_of_isAssignableFrom_top
    exact htop ▸ isAssignableFrom_merge hca hcb
  · intro honly
    exact honly _ (isAssignableFrom_merge_left ha) (isAssignableFrom_merge_right hb)

end FrameValue

namespace Frame

/-- True if all references of a frame are to reference types. -/
structure IsProper (f : Frame) : Prop where
  locals : ∀ v ∈ f.locals, v.IsProper
  stack : ∀ v ∈ f.stack, v.IsProper

/-- True if each value of the first frame is the least one above the other two frames' values at its
place. -/
structure LeastAbove (merged f g : Frame) : Prop where
  locals : List.Forall₂ (fun v p => v.LeastAbove p.1 p.2) merged.locals (f.locals.zip g.locals)
  stack : List.Forall₂ (fun v p => v.LeastAbove p.1 p.2) merged.stack (f.stack.zip g.stack)

/-- True if nothing but the unknown value is above two values at the same height of the stacks. -/
def Clash (f g : Frame) : Prop :=
  ∃ p ∈ f.stack.zip g.stack,
    ∀ c : FrameValue, c.isAssignableFrom p.1 → c.isAssignableFrom p.2 → c = .top

theorem forall₂_leastAbove_zipWith {known incoming : List FrameValue}
    (hk : ∀ v ∈ known, v.IsProper) (hi : ∀ v ∈ incoming, v.IsProper) :
    List.Forall₂ (fun v p => FrameValue.LeastAbove v p.1 p.2)
      (List.zipWith FrameValue.merge known incoming) (known.zip incoming) := by
  induction known generalizing incoming with
  | nil => exact .nil
  | cons a known ih =>
      cases incoming with
      | nil => exact .nil
      | cons b incoming =>
          rw [List.forall_mem_cons] at hk hi
          exact .cons (FrameValue.leastAbove_merge hk.1 hi.1) (ih hk.2 hi.2)

variable {known incoming : Frame}

/-- Stacks merge to a stack with an unknown value if and only if they clash. -/
theorem exists_top_iff_clash (hk : known.IsProper) (hi : incoming.IsProper) :
    (∃ v ∈ List.zipWith FrameValue.merge known.stack incoming.stack, v = .top) ↔
      known.Clash incoming := by
  rw [← List.map_uncurry_zip_eq_zipWith]
  constructor
  · rintro ⟨v, hv, htop⟩
    obtain ⟨⟨a, b⟩, hmem, rfl⟩ := List.mem_map.1 hv
    obtain ⟨ha, hb⟩ := List.of_mem_zip hmem
    exact ⟨_, hmem, (FrameValue.merge_eq_top_iff (hk.stack a ha) (hi.stack b hb)).1 htop⟩
  · rintro ⟨⟨a, b⟩, hmem, honly⟩
    obtain ⟨ha, hb⟩ := List.of_mem_zip hmem
    exact ⟨_, List.mem_map_of_mem hmem,
      (FrameValue.merge_eq_top_iff (hk.stack a ha) (hi.stack b hb)).2 honly⟩

/-- What comes of a frame that arrives where another one is known. -/
theorem mergeFrom_eq_ok {changed : Bool} {merged : Frame} :
    known.mergeFrom incoming = .ok (changed, merged) ↔
      known.merge incoming = .ok merged ∧ changed = decide (merged ≠ known) := by
  rw [mergeFrom_eq]
  cases known.merge incoming with
  | error e => simp [Except.map]
  | ok m =>
      simp only [Except.map, Except.ok.injEq, Prod.mk.injEq]
      constructor
      · rintro ⟨rfl, rfl⟩
        exact ⟨rfl, rfl⟩
      · rintro ⟨rfl, rfl⟩
        exact ⟨rfl, rfl⟩

/-- Frames merge if and only if their stacks are equally high and don't clash. -/
theorem exists_mergeFrom_iff (locals : known.locals.length = incoming.locals.length)
    (hk : known.IsProper) (hi : incoming.IsProper) :
    (∃ changed merged, known.mergeFrom incoming = .ok (changed, merged)) ↔
      known.stack.length = incoming.stack.length ∧ ¬known.Clash incoming := by
  rw [← exists_top_iff_clash hk hi]
  constructor
  · rintro ⟨changed, merged, h⟩
    obtain ⟨hl, rfl, hknown⟩ := (merge_eq_ok locals).1 (mergeFrom_eq_ok.1 h).1
    exact ⟨hl, fun ⟨v, hv, htop⟩ => hknown v hv htop⟩
  · rintro ⟨hl, hclash⟩
    refine ⟨_, _, mergeFrom_eq_ok.2 ⟨(merge_eq_ok locals).2 ⟨hl, rfl, ?_⟩, rfl⟩⟩
    intro v hv htop
    exact hclash ⟨v, hv, htop⟩

theorem mergeFrom_fails_iff (locals : known.locals.length = incoming.locals.length)
    (hk : known.IsProper) (hi : incoming.IsProper) :
    (∃ e, known.mergeFrom incoming = .error e) ↔
      known.stack.length ≠ incoming.stack.length ∨ known.Clash incoming := by
  have hfails : (∃ e, known.mergeFrom incoming = .error e) ↔
      ¬∃ changed merged, known.mergeFrom incoming = .ok (changed, merged) := by
    rcases known.mergeFrom incoming with e | ⟨changed, merged⟩ <;> simp
  rw [hfails, exists_mergeFrom_iff locals hk hi, not_and_or, not_not]

theorem leastAbove_of_mergeFrom (locals : known.locals.length = incoming.locals.length)
    (hk : known.IsProper) (hi : incoming.IsProper) {changed : Bool} {merged : Frame}
    (h : known.mergeFrom incoming = .ok (changed, merged)) : merged.LeastAbove known incoming := by
  obtain ⟨-, rfl, -⟩ := (merge_eq_ok locals).1 (mergeFrom_eq_ok.1 h).1
  exact ⟨forall₂_leastAbove_zipWith hk.locals hi.locals,
    forall₂_leastAbove_zipWith hk.stack hi.stack⟩

end Frame

/-- Assignability orders the values with the unknown one above all, and merging gives the least value
above two.  A frame takes in another one with as many locals unless their stacks differ in height or
clash; it becomes, value by value, the least frame above both, and tells whether it has changed. -/
theorem Frame.mergeFrom_least :
    (∀ a : FrameValue, a.IsProper → a.isAssignableFrom a) ∧
    (∀ a b c : FrameValue,
      a.isAssignableFrom b → b.isAssignableFrom c → a.isAssignableFrom c) ∧
    (∀ a b : FrameValue, a.isAssignableFrom b → b.isAssignableFrom a → a = b) ∧
    (∀ a : FrameValue, FrameValue.top.isAssignableFrom a) ∧
    (∀ a b : FrameValue, a.IsProper → b.IsProper → (a.merge b).LeastAbove a b) ∧
    (∀ a b : FrameValue, a.IsProper → b.IsProper → a.merge b = b.merge a) ∧
    (∀ a b c : FrameValue, a.IsProper → b.IsProper → c.IsProper →
      (a.merge b).merge c = a.merge (b.merge c)) ∧
    (∀ a : FrameValue, a.merge a = a) ∧
    ∀ known incoming : Frame, known.locals.length = incoming.locals.length →
      known.IsProper → incoming.IsProper →
        ((∃ e, known.mergeFrom incoming = .error e) ↔
          known.stack.length ≠ incoming.stack.length ∨ known.Clash incoming) ∧
        ∀ changed merged, known.mergeFrom incoming = .ok (changed, merged) →
          merged.LeastAbove known incoming ∧ (changed ↔ merged ≠ known) := by
  refine ⟨fun a => FrameValue.isAssignableFrom_refl, fun a b c => FrameValue.isAssignableFrom_trans,
    fun a b => FrameValue.isAssignableFrom_antisymm, FrameValue.below_top,
    fun a b => FrameValue.leastAbove_merge, fun a b => FrameValue.merge_comm,
    fun a b c => FrameValue.merge_assoc, FrameValue.merge_self, ?_⟩
  intro known incoming locals hk hi
  refine ⟨mergeFrom_fails_iff locals hk hi, ?_⟩
  intro changed merged h
  refine ⟨leastAbove_of_mergeFrom locals hk hi h, ?_⟩
  rw [(mergeFrom_eq_ok.1 h).2, decide_eq_true_eq]

/-- Arrays of arrays of two kinds meet as arrays of objects, and null meets an array as that array. -/
theorem Frame.mergeFrom_least_arrays :
    Frame.LeastAbove ⟨[.reference (.array .long)], [.reference (.array .root)]⟩
        ⟨[.null], [.reference (.array (.array .int))]⟩
        ⟨[.reference (.array .long)], [.reference (.array (.array .long))]⟩ ∧
      Frame.mergeFrom ⟨[.null], [.reference (.array (.array .int))]⟩
        ⟨[.reference (.array .long)], [.reference (.array (.array .long))]⟩ =
        .ok (true, ⟨[.reference (.array .long)], [.reference (.array .root)]⟩) := by
  have known : Frame.IsProper ⟨[.null], [.reference (.array (.array .int))]⟩ := by
    constructor <;> simp [FrameValue.IsProper, ValueType.isReference]
  have incoming :
      Frame.IsProper ⟨[.reference (.array .long)], [.reference (.array (.array .long))]⟩ := by
    constructor <;> simp [FrameValue.IsProper, ValueType.isReference]
  obtain ⟨-, -, -, -, -, -, -, -, hframes⟩ := mergeFrom_least
  have hmerged : Frame.mergeFrom ⟨[.null], [.reference (.array (.array .int))]⟩
      ⟨[.reference (.array .long)], [.reference (.array (.array .long))]⟩ =
      .ok (true, ⟨[.reference (.array .long)], [.reference (.array .root)]⟩) := by
    decide
  exact ⟨((hframes _ _ (by rfl) known incoming).2 _ _ hmerged).1, hmerged⟩

end Resumable
