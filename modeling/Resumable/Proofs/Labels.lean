import Mathlib.Data.List.Nodup
import Resumable.Proofs.Typing

/-!
# Labels

New labels have consecutive numbers.  In a body that places no label twice, every label stands where
it's placed.
-/

namespace Resumable

theorem foldl_max_le_iff {l : List Nat} {a n : Nat} :
    l.foldl max a ≤ n ↔ a ≤ n ∧ ∀ x ∈ l, x ≤ n := by
  induction l generalizing a with
  | nil => simp
  | cons x l ih =>
      rw [List.foldl_cons, ih, List.forall_mem_cons, Nat.max_le, and_assoc]

namespace Body

variable {b : Body}

theorem nextLabel_newLabels (b : Body) (n : Nat) :
    (b.newLabels n).2 = { b with nextLabel := b.nextLabel + UInt32.ofNat n } := by
  induction n generalizing b with
  | zero => simp [newLabels]
  | succ n ih =>
      simp only [newLabels, newLabel, ih]
      congr 1
      rw [UInt32.add_assoc]
      congr 1
      apply UInt32.toNat_inj.1
      simp [Nat.add_comm]

/-- New labels are numbered consecutively. -/
theorem newLabels_eq (b : Body) (n : Nat) :
    (b.newLabels n).1 = (List.range n).map fun k => ⟨b.nextLabel + UInt32.ofNat k⟩ := by
  induction n generalizing b with
  | zero => rfl
  | succ n ih =>
      simp only [newLabels, newLabel, ih, List.range_succ_eq_map, List.map_cons, List.map_map]
      congr 1
      · simp
      · refine List.map_congr_left fun k _ => ?_
        simp only [Function.comp]
        congr 1
        rw [UInt32.add_assoc]
        congr 1
        apply UInt32.toNat_inj.1
        simp [Nat.add_comm]

theorem length_newLabels (b : Body) (n : Nat) : (b.newLabels n).1.length = n := by
  simp [newLabels_eq]

/-- Labels that are made in two goes are the same as those made in one. -/
theorem newLabels_add (b : Body) (n k : Nat) :
    (b.newLabels (n + k)).1 = (b.newLabels n).1 ++ ((b.newLabels n).2.newLabels k).1 := by
  rw [newLabels_eq, newLabels_eq, newLabels_eq, nextLabel_newLabels, List.range_add, List.map_append,
    List.map_map]
  congr 1
  refine List.map_congr_left fun j _ => ?_
  simp only [Function.comp]
  congr 1
  rw [UInt32.add_assoc]
  congr 1
  apply UInt32.toNat_inj.1
  simp

theorem newLabels_add_snd (b : Body) (n k : Nat) :
    (b.newLabels (n + k)).2 = ((b.newLabels n).2.newLabels k).2 := by
  rw [nextLabel_newLabels, nextLabel_newLabels, nextLabel_newLabels]
  congr 1
  rw [UInt32.add_assoc]
  congr 1
  apply UInt32.toNat_inj.1
  simp

/-- The number of a new label, if the numbers don't run out. -/
theorem le_number_of_mem_newLabels {n : Nat} (h : b.nextLabel.toNat + n ≤ 4294967295) {l : Label}
    (hl : l ∈ (b.newLabels n).1) : b.nextLabel ≤ l.number := by
  rw [newLabels_eq] at hl
  obtain ⟨k, hk, rfl⟩ := List.mem_map.1 hl
  have hk := List.mem_range.1 hk
  rw [UInt32.le_iff_toNat_le, UInt32.toNat_add, UInt32.toNat_ofNat']
  have : k % 2 ^ 32 = k := Nat.mod_eq_of_lt (by omega)
  rw [this, Nat.mod_eq_of_lt (by omega)]
  omega

theorem number_lt_of_mem_newLabels {n : Nat} (h : b.nextLabel.toNat + n ≤ 4294967295) {l : Label}
    (hl : l ∈ (b.newLabels n).1) : l.number.toNat < b.nextLabel.toNat + n := by
  rw [newLabels_eq] at hl
  obtain ⟨k, hk, rfl⟩ := List.mem_map.1 hl
  have hk := List.mem_range.1 hk
  rw [UInt32.toNat_add, UInt32.toNat_ofNat', Nat.mod_eq_of_lt (a := k) (by omega),
    Nat.mod_eq_of_lt (by omega)]
  omega

/-- The label that's given once as many labels have been given as its number is ahead. -/
theorem nextLabel_add_sub {l : Label} (h : b.nextLabel ≤ l.number) :
    b.nextLabel + UInt32.ofNat (l.number.toNat - b.nextLabel.toNat) = l.number := by
  rw [UInt32.ofNat_sub (UInt32.le_iff_toNat_le.1 h), UInt32.ofNat_toNat, UInt32.ofNat_toNat]
  rw [UInt32.add_comm, UInt32.sub_add_cancel]

/-- The new labels are those with the next numbers, if the numbers don't run out. -/
theorem mem_newLabels {n : Nat} (h : b.nextLabel.toNat + n ≤ 4294967295) {l : Label} :
    l ∈ (b.newLabels n).1 ↔
      b.nextLabel ≤ l.number ∧ l.number.toNat < b.nextLabel.toNat + n := by
  constructor
  · intro hl
    exact ⟨le_number_of_mem_newLabels h hl, number_lt_of_mem_newLabels h hl⟩
  · rintro ⟨hle, hlt⟩
    have hdistance : l.number.toNat - b.nextLabel.toNat < n := by
      have := UInt32.le_iff_toNat_le.1 hle
      omega
    rw [newLabels_eq]
    exact List.mem_map.2 ⟨_, List.mem_range.2 hdistance, congrArg Label.mk (nextLabel_add_sub hle)⟩

/-- New labels differ from each other, if the numbers don't run out. -/
theorem nodup_newLabels {n : Nat} (h : b.nextLabel.toNat + n ≤ 4294967295) :
    (b.newLabels n).1.Nodup := by
  rw [newLabels_eq]
  refine List.Nodup.map_on ?_ List.nodup_range
  intro j hj k hk heq
  rw [List.mem_range] at hj hk
  have := congrArg UInt32.toNat (Label.mk.inj heq)
  rw [UInt32.toNat_add, UInt32.toNat_add, UInt32.toNat_ofNat', UInt32.toNat_ofNat'] at this
  have hj' : j % 2 ^ 32 = j := Nat.mod_eq_of_lt (by omega)
  have hk' : k % 2 ^ 32 = k := Nat.mod_eq_of_lt (by omega)
  rw [hj', hk', Nat.mod_eq_of_lt (by omega), Nat.mod_eq_of_lt (by omega)] at this
  omega

theorem toNat_foldl_max (ns : List UInt32) (n : UInt32) :
    (ns.foldl max n).toNat = (ns.map UInt32.toNat).foldl max n.toNat := by
  induction ns generalizing n with
  | nil => rfl
  | cons k ns ih => rw [List.foldl_cons, ih, UInt32.toNat_max, List.map_cons, List.foldl_cons]

/-- Labels that instructions use are below the next new one, unless the numbers have run out. -/
theorem number_lt_nextLabel {is : List Instruction} {l : Label}
    (hl : l ∈ is.flatMap Instruction.labels) (h : l.number.toNat < 4294967295) :
    l.number < (ofList is).nextLabel := by
  rw [UInt32.lt_iff_toNat_lt, ofList, toNat_foldl_max]
  refine Nat.lt_of_lt_of_le (m := (l.number + 1).toNat) ?_ ((foldl_max_le_iff.1 (Nat.le_refl _)).2 _
    (List.mem_map_of_mem (List.mem_map_of_mem hl)))
  have hone : UInt32.toNat 1 = 1 := rfl
  rw [UInt32.toNat_add, hone, Nat.mod_eq_of_lt (by omega)]
  exact Nat.lt_succ_self _

/-- The next new label follows the greatest one in use. -/
theorem nextLabel_ofList {is : List Instruction} {l : Label}
    (hl : l ∈ is.flatMap Instruction.labels)
    (hle : ∀ k ∈ is.flatMap Instruction.labels, k.number + 1 ≤ l.number + 1) :
    (ofList is).nextLabel = l.number + 1 := by
  apply UInt32.toNat_inj.1
  rw [ofList, toNat_foldl_max]
  refine Nat.le_antisymm (foldl_max_le_iff.2 ⟨Nat.zero_le _, ?_⟩)
    ((foldl_max_le_iff.1 (Nat.le_refl _)).2 _ (List.mem_map_of_mem (List.mem_map_of_mem hl)))
  simp only [List.mem_map]
  rintro _ ⟨_, ⟨k, hk, rfl⟩, rfl⟩
  exact UInt32.le_iff_toNat_le.1 (hle k hk)

/-- The labels that instructions place, in their order. -/
def placed (is : List Instruction) : List Label := is.filterMap Instruction.placed?

theorem placed_append (is js : List Instruction) : placed (is ++ js) = placed is ++ placed js :=
  List.filterMap_append

theorem map_placesFrom (n : Nat) (is : List Instruction) :
    (placesFrom n is).map (·.1) = placed is := by
  induction is generalizing n with
  | nil => rfl
  | cons i is ih =>
      simp only [placed, List.filterMap_cons] at ih ⊢
      cases i <;> simp [placesFrom, Instruction.placed?, ih]

theorem firstRepeated?_eq_none {seen labels : List Label} :
    firstRepeated? seen labels = none ↔ labels.Nodup ∧ ∀ l ∈ labels, l ∉ seen := by
  induction labels generalizing seen with
  | nil => simp [firstRepeated?]
  | cons l labels ih =>
      simp only [firstRepeated?]
      split
      · rename_i hl
        simp [hl]
      · rename_i hl
        rw [ih, List.nodup_cons]
        grind

/-- The labels of a body are in order if none is placed twice, and all that are used are placed. -/
theorem labelPositions_eq_ok :
    (∃ places, b.labelPositions = .ok places) ↔
      (placed b.instructions).Nodup ∧
        ∀ i ∈ b.instructions, ∀ l ∈ i.targets, l ∈ placed b.instructions := by
  simp only [labelPositions, map_placesFrom]
  constructor
  · rintro ⟨places, h⟩
    split at h
    · cases h
    · rename_i hnone
      split at h
      · cases h
      · rename_i hfind
        refine ⟨(firstRepeated?_eq_none.1 hnone).1, fun i hi l hl => ?_⟩
        simpa using List.find?_eq_none.1 hfind l (List.mem_flatMap.2 ⟨i, hi, hl⟩)
  · rintro ⟨hnodup, htargets⟩
    have hnone := firstRepeated?_eq_none.2 ⟨hnodup, fun l _ => List.not_mem_nil (a := l)⟩
    have hfind : (b.instructions.flatMap Instruction.targets).find?
        (· ∉ placed b.instructions) = none := by
      refine List.find?_eq_none.2 fun l hl => ?_
      obtain ⟨i, hi, hl⟩ := List.mem_flatMap.1 hl
      simpa using htargets i hi l hl
    rw [hnone, hfind]
    exact ⟨_, rfl⟩

theorem placed?_eq_some {i : Instruction} {l : Label} : i.placed? = some l ↔ i = .label l := by
  cases i <;> simp [Instruction.placed?]

/-- What stands where a label is found. -/
theorem get?_of_position? {l : Label} {q : Nat} (h : b.position? l = some q) :
    b.get? q = some (.label l) := by
  obtain ⟨hq, hl, -⟩ := List.findIdx?_eq_some_iff_getElem.1 h
  have hplaced : b.instructions[q].placed? = some l := by simpa using hl
  rw [get?, List.getElem?_eq_getElem hq, placed?_eq_some.1 hplaced]

/-- A label that isn't placed twice is found where it stands. -/
theorem position?_of_get? {l : Label} {q : Nat} (h : (placed b.instructions).Nodup)
    (hq : b.get? q = some (.label l)) : b.position? l = some q := by
  have hlt : q < b.instructions.length := lt_of_get? hq
  have hget : b.instructions[q] = .label l := by
    have : b.instructions[q]? = some (.label l) := hq
    rw [List.getElem?_eq_getElem hlt] at this
    exact Option.some.inj this
  refine List.findIdx?_eq_some_iff_getElem.2 ⟨hlt, by simp [hget, Instruction.placed?], ?_⟩
  intro j hj
  simp only [decide_eq_true_eq]
  intro hplaced
  have hj' := placed?_eq_some.1 hplaced
  -- Both places would contribute the label.
  have hsplit : b.instructions = b.instructions.take q ++ b.instructions[q] ::
      b.instructions.drop (q + 1) := by
    rw [← List.drop_eq_getElem_cons hlt, List.take_append_drop]
  rw [hsplit, placed_append] at h
  refine (List.nodup_append.1 h).2.2 l ?_ l ?_ rfl
  · refine List.mem_filterMap.2 ⟨.label l, ?_, rfl⟩
    rw [← hj']
    exact List.mem_take_iff_getElem.2 ⟨j, by omega, rfl⟩
  · simp [placed, hget, Instruction.placed?]

end Body

end Resumable
