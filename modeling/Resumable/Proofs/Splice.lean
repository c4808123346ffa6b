import Mathlib.Data.List.Flatten
import Mathlib.Data.List.Perm.Basic
import Resumable.Body.Splice

/-!
# What editing gives

Editing a body puts in the place of each instruction what the edits at its position insert and leave
over, and appends what the edits beyond the end insert.  So nothing is lost or comes twice, and the
order of the edits matters only among those at one position.
-/

namespace Resumable

/-- Sorting a list by a key keeps the order of the members with one key. -/
theorem filter_mergeSort_key {α : Type} (key : α → Nat) (l : List α) (n : Nat) :
    (l.mergeSort fun a b => key a ≤ key b).filter (key · = n) = l.filter (key · = n) := by
  have hsub : (l.filter (key · = n)).Sublist (l.mergeSort fun a b => key a ≤ key b) := by
    refine List.sublist_mergeSort ?_ ?_ ?_ List.filter_sublist
    · intro a b c hab hbc
      simp only [decide_eq_true_eq] at *
      omega
    · intro a b
      simp only [Bool.or_eq_true, decide_eq_true_eq]
      omega
    · refine List.pairwise_of_forall_mem_list fun a ha b hb => ?_
      simp only [List.mem_filter, decide_eq_true_eq] at ha hb ⊢
      omega
  have hperm := (List.mergeSort_perm l fun a b => decide (key a ≤ key b)).filter (key · = n)
  have hkept := hsub.filter (key · = n)
  rw [List.filter_filter] at hkept
  simp only [Bool.and_self] at hkept
  exact (hkept.eq_of_length hperm.length_eq.symm).symm

section

variable {α : Type} {key : α → Nat} {l : List α} {n k : Nat}

/-- A list that's sorted by a key begins with the members that have the least key. -/
theorem span_least_key (hsorted : l.Pairwise fun a b => key a ≤ key b)
    (hfrom : ∀ a ∈ l, n ≤ key a) :
    l.takeWhile (key · = n) = l.filter (key · = n) ∧
      l.dropWhile (key · = n) = l.filter (key · ≠ n) := by
  induction l with
  | nil => simp
  | cons a l ih =>
      rw [List.pairwise_cons] at hsorted
      rw [List.forall_mem_cons] at hfrom
      by_cases ha : key a = n
      · have := ih hsorted.2 hfrom.2
        simp [ha, this.1, this.2]
      · have hrest : ∀ b ∈ l, key b ≠ n := by
          intro b hb
          have := hsorted.1 b hb
          omega
        have hall : l.filter (key · ≠ n) = l :=
          List.filter_eq_self.2 fun b hb => by simpa using hrest b hb
        have hnone : l.filter (key · = n) = [] :=
          List.filter_eq_nil_iff.2 fun b hb => by simpa using hrest b hb
        simp only [ne_eq, decide_not] at hall
        simp [ha, hall, hnone]

/-- Leaving out the members with one key makes no difference to those with another one. -/
theorem filter_filter_key_ne {p : Nat} (hp : p ≠ n) :
    (l.filter (key · ≠ n)).filter (key · = p) = l.filter (key · = p) := by
  rw [List.filter_filter]
  refine List.filter_congr fun a _ => ?_
  by_cases ha : key a = p
  · simp [ha, hp]
  · simp [ha]

/-- A list that's sorted by a key has the members with each key one after the other. -/
theorem flatMap_filter_of_sorted (hsorted : l.Pairwise fun a b => key a ≤ key b)
    (hfrom : ∀ a ∈ l, n ≤ key a) (hto : ∀ a ∈ l, key a < n + k) :
    (List.range' n k).flatMap (fun p => l.filter (key · = p)) = l := by
  induction k generalizing n l with
  | zero =>
      refine (List.eq_nil_iff_forall_not_mem.2 fun a ha => ?_).symm
      have := hfrom a ha
      have := hto a ha
      omega
  | succ k ih =>
      have hrest : (List.range' (n + 1) k).flatMap (fun p => l.filter (key · = p)) =
          l.filter (key · ≠ n) := by
        rw [← ih (hsorted.filter (key · ≠ n)) (n := n + 1)]
        · refine List.flatMap_congr fun p hp => (filter_filter_key_ne ?_).symm
          have := (List.mem_range'_1.1 hp).1
          omega
        · intro a ha
          have := hfrom a (List.mem_of_mem_filter ha)
          have := List.of_mem_filter ha
          simp only [ne_eq, decide_not, Bool.not_eq_true', decide_eq_false_iff_not] at this
          omega
        · intro a ha
          have := hto a (List.mem_of_mem_filter ha)
          omega
      obtain ⟨htake, hdrop⟩ := span_least_key hsorted hfrom
      rw [List.range'_succ, List.flatMap_cons, hrest, ← htake, ← hdrop,
        List.takeWhile_append_dropWhile]

theorem pairwise_mergeSort_key (key : α → Nat) (l : List α) :
    (l.mergeSort fun a b => key a ≤ key b).Pairwise fun a b => key a ≤ key b := by
  refine (List.pairwise_mergeSort ?_ ?_ l).imp fun hab => by simpa using hab
  · intro a b c hab hbc
    simp only [decide_eq_true_eq] at *
    omega
  · intro a b
    simp only [Bool.or_eq_true, decide_eq_true_eq]
    omega

/-- Members of a list, put in the order of a key below `n`, are still the same members. -/
theorem flatMap_filter_perm (key : α → Nat) (h : ∀ a ∈ l, key a < n) :
    ((List.range n).flatMap fun k => l.filter (key · = k)).Perm l := by
  have hsorted := flatMap_filter_of_sorted (n := 0) (k := n) (pairwise_mergeSort_key key l)
    (fun a _ => Nat.zero_le _) fun a ha => by simpa using h a (List.mem_mergeSort.1 ha)
  simp only [filter_mergeSort_key] at hsorted
  rw [List.range_eq_range', hsorted]
  exact List.mergeSort_perm l _

end

namespace Edit

/-- What a position becomes whose instruction is edited. -/
def replacement (i : Instruction) (here : List Edit) : List Instruction :=
  here.flatMap (·.before) ++ (if here.any (·.remove) then [] else [i]) ++ here.flatMap (·.after)

/-- Applying sorted edits replaces each instruction on its own and appends what's beyond the end. -/
theorem apply_eq {position : Nat} {instructions : List Instruction} {edits : List Edit}
    (hsorted : edits.Pairwise fun d e => d.position ≤ e.position)
    (hfrom : ∀ e ∈ edits, position ≤ e.position) :
    apply position instructions edits =
      ((instructions.zipIdx position).flatMap fun (i, p) =>
        replacement i (edits.filter (·.position = p))) ++
      appended (edits.filter (position + instructions.length ≤ ·.position)) := by
  induction instructions generalizing position edits with
  | nil =>
      have hall : edits.filter (position + ([] : List Instruction).length ≤ ·.position) = edits :=
        List.filter_eq_self.2 fun e he => by simpa using hfrom e he
      rw [hall]
      rfl
  | cons i rest ih =>
      -- The edits at the first position come first, and the others are further on.
      obtain ⟨htake, hdrop⟩ := span_least_key hsorted hfrom
      have hrest : apply (position + 1) rest (edits.filter (·.position ≠ position)) =
          ((rest.zipIdx (position + 1)).flatMap fun (i, p) =>
            replacement i (edits.filter (·.position = p))) ++
          appended (edits.filter (position + (i :: rest).length ≤ ·.position)) := by
        rw [ih (hsorted.filter _)]
        · congr 1
          · refine List.flatMap_congr fun ip hip => ?_
            have hp := List.le_snd_of_mem_zipIdx hip
            dsimp only
            rw [filter_filter_key_ne (by omega)]
          · rw [List.filter_filter]
            congr 1
            refine List.filter_congr fun e _ => ?_
            by_cases he : e.position = position
            · simp [he]
            · simp [he, Nat.add_comm, Nat.add_left_comm]
        · intro e he
          have := hfrom e (List.mem_of_mem_filter he)
          have := List.of_mem_filter he
          simp only [ne_eq, decide_not, Bool.not_eq_true', decide_eq_false_iff_not] at this
          omega
      rw [apply, htake, hdrop, hrest, List.zipIdx_cons, List.flatMap_cons]
      simp only [replacement, List.append_assoc]

/-- A position beyond those of all edits. -/
def bound (edits : List Edit) : Nat := edits.foldr (fun e n => max (e.position + 1) n) 0

theorem bound_le_iff {edits : List Edit} {n : Nat} :
    bound edits ≤ n ↔ ∀ e ∈ edits, e.position < n := by
  induction edits with
  | nil => simp [bound]
  | cons d edits ih =>
      rw [bound] at ih
      rw [bound, List.foldr_cons, List.forall_mem_cons, Nat.max_le, ih, Nat.succ_le_iff]

theorem position_lt_bound {edits : List Edit} : ∀ e ∈ edits, e.position < bound edits :=
  bound_le_iff.1 (Nat.le_refl _)

/-- The bound depends on the edits at each position only. -/
theorem bound_congr {edits edits' : List Edit}
    (h : ∀ p, edits'.filter (·.position = p) = edits.filter (·.position = p)) :
    bound edits' = bound edits := by
  have hmem (e : Edit) : e ∈ edits' ↔ e ∈ edits := by
    have hfilter (l : List Edit) : e ∈ l ↔ e ∈ l.filter (·.position = e.position) := by simp
    rw [hfilter edits', h, ← hfilter]
  refine Nat.le_antisymm ?_ ?_
  · exact bound_le_iff.2 fun e he => position_lt_bound e ((hmem e).1 he)
  · exact bound_le_iff.2 fun e he => position_lt_bound e ((hmem e).2 he)

/-- A position keeps its instruction unless it's removed, and has what's inserted there once. -/
theorem replacement_perm (i : Instruction) (here : List Edit) :
    (replacement i here).Perm ((if here.any (·.remove) then [] else [i]) ++ appended here) := by
  have hinserted : (here.flatMap (·.before) ++ here.flatMap (·.after)).Perm (appended here) :=
    List.flatMap_append_perm ..
  rw [replacement, List.append_assoc]
  refine (List.perm_append_comm_assoc ..).trans ?_
  exact hinserted.append_left _

end Edit

namespace Body

variable {b : Body} {edits : List Edit}

/-- What edits make of the body, position by position. -/
def editedInstructions (b : Body) (edits : List Edit) : List Instruction :=
  (b.instructions.zipIdx.flatMap fun (i, p) =>
    Edit.replacement i (edits.filter (·.position = p))) ++
  (List.range' b.length (Edit.bound edits - b.length)).flatMap fun p =>
    Edit.appended (edits.filter (·.position = p))

/-- The instructions that aren't removed. -/
def keptInstructions (b : Body) (edits : List Edit) : List Instruction :=
  b.instructions.zipIdx.flatMap fun (i, p) =>
    if (edits.filter (·.position = p)).any (·.remove) then [] else [i]

/-- Editing a body replaces each instruction on its own, and then goes on position by position. -/
theorem splice_eq (b : Body) (edits : List Edit) :
    b.splice edits = { b with instructions := b.editedInstructions edits } := by
  have hsorted := pairwise_mergeSort_key Edit.position edits
  have hbeyond : (edits.mergeSort fun d e => d.position ≤ e.position).filter
        (0 + b.instructions.length ≤ ·.position) =
      (List.range' b.length (Edit.bound edits - b.length)).flatMap fun p =>
        edits.filter (·.position = p) := by
    rw [← flatMap_filter_of_sorted (hsorted.filter (0 + b.instructions.length ≤ ·.position))
      (n := b.length) (k := Edit.bound edits - b.length)]
    · refine List.flatMap_congr fun p hp => ?_
      have hle := (List.mem_range'_1.1 hp).1
      rw [← filter_mergeSort_key Edit.position edits p, List.filter_filter]
      refine List.filter_congr fun e _ => ?_
      by_cases he : e.position = p
      · simpa [he, length] using hle
      · simp [he]
    · intro e he
      simpa [length] using List.of_mem_filter he
    · intro e he
      have hle : b.length ≤ e.position := by simpa [length] using List.of_mem_filter he
      have := Edit.position_lt_bound e (List.mem_mergeSort.1 (List.mem_of_mem_filter he))
      omega
  simp only [splice]
  rw [Edit.apply_eq hsorted fun e _ => Nat.zero_le _, hbeyond]
  simp only [filter_mergeSort_key Edit.position, editedInstructions, Edit.appended,
    List.flatMap_assoc]

/-- Editing a body nowhere beyond its end replaces each instruction on its own. -/
theorem instructions_splice (h : ∀ e ∈ edits, e.position < b.length) :
    (b.splice edits).instructions = b.instructions.zipIdx.flatMap fun (i, p) =>
      Edit.replacement i (edits.filter (·.position = p)) := by
  have hnone : ((List.range' b.length (Edit.bound edits - b.length)).flatMap fun p =>
      Edit.appended (edits.filter (·.position = p))) = [] := by
    refine List.flatMap_eq_nil_iff.2 fun p hp => ?_
    have hle := (List.mem_range'_1.1 hp).1
    have : edits.filter (·.position = p) = [] := List.filter_eq_nil_iff.2 fun e he => by
      have := h e he
      simp only [decide_eq_true_eq]
      omega
    rw [this]
    rfl
  rw [splice_eq]
  simp only [editedInstructions, hnone, List.append_nil]

/-- The instructions that aren't removed stay in their order. -/
theorem keptInstructions_sublist (b : Body) (edits : List Edit) :
    (b.keptInstructions edits).Sublist (b.editedInstructions edits) := by
  refine (List.Sublist.flatMap_right _ fun ip _ => ?_).trans (List.sublist_append_left _ _)
  exact (List.sublist_append_right _ _).trans (List.sublist_append_left _ _)

/-- Editing gives each instruction that isn't removed once, and each inserted one. -/
theorem editedInstructions_perm (b : Body) (edits : List Edit) :
    (b.editedInstructions edits).Perm (b.keptInstructions edits ++ Edit.appended edits) := by
  let inserted (p : Nat) : List Instruction := Edit.appended (edits.filter (·.position = p))
  have hbody : (b.instructions.zipIdx.flatMap fun (i, p) =>
        Edit.replacement i (edits.filter (·.position = p))).Perm
      (b.keptInstructions edits ++ (List.range' 0 b.length).flatMap inserted) := by
    have hpositions : b.instructions.zipIdx.flatMap (fun ip => inserted ip.2) =
        (List.range' 0 b.length).flatMap inserted := by
      rw [length, ← List.zipIdx_map_snd 0 b.instructions, List.flatMap_map]
    rw [← hpositions]
    refine (List.Perm.flatMap_left _ fun ip _ => Edit.replacement_perm ip.1 _).trans ?_
    exact (List.flatMap_append_perm _ _ _).symm
  have hall : ((List.range' 0 b.length).flatMap inserted ++
        (List.range' b.length (Edit.bound edits - b.length)).flatMap inserted).Perm
      (Edit.appended edits) := by
    have hrange := List.range'_append_1 (s := 0) (m := b.length) (n := Edit.bound edits - b.length)
    rw [Nat.zero_add] at hrange
    rw [← List.flatMap_append, hrange, ← List.range_eq_range']
    simp only [inserted, Edit.appended, ← List.flatMap_assoc]
    refine (flatMap_filter_perm Edit.position fun e he => ?_).flatMap_right _
    have := Edit.position_lt_bound e he
    omega
  refine (hbody.append_right _).trans ?_
  rw [List.append_assoc]
  exact hall.append_left _

/-- Editing a body goes position by position: where an instruction stood come the instructions
inserted before it, itself unless it's removed, and those inserted after it; beyond the end come
those of the edits there.  So each instruction that isn't removed is kept once, in the order as it
was, each inserted one is there once, and only the order of edits at one position matters. -/
theorem splice_positionwise (b : Body) (edits : List Edit) :
    b.splice edits = { b with instructions := b.editedInstructions edits } ∧
      (b.keptInstructions edits).Sublist (b.splice edits).instructions ∧
      (b.splice edits).instructions.Perm
        (b.keptInstructions edits ++ edits.flatMap fun e => e.before ++ e.after) ∧
      ∀ edits' : List Edit, (∀ p, edits'.filter (·.position = p) = edits.filter (·.position = p)) →
        b.splice edits' = b.splice edits := by
  have hsplice := splice_eq b edits
  refine ⟨hsplice, ?_, ?_, fun edits' hsame => ?_⟩
  · rw [hsplice]
    exact keptInstructions_sublist b edits
  · rw [hsplice]
    exact editedInstructions_perm b edits
  · have hbound : Edit.bound edits' = Edit.bound edits := Edit.bound_congr hsame
    rw [hsplice, splice_eq]
    simp only [editedInstructions, hsame, hbound]

/-- Two edits in front of different instructions may come in any order. -/
theorem splice_positionwise_swapped :
    let first : Edit := .insertBefore 0 [.const (.int 1)]
    let second : Edit := .replace 1 [.const (.int 2)]
    let b : Body := .ofList [.nop, .swap]
    (∀ p, [second, first].filter (·.position = p) = [first, second].filter (·.position = p)) ∧
      b.splice [second, first] = b.splice [first, second] := by
  intro first second b
  have hsame (p : Nat) :
      [second, first].filter (·.position = p) = [first, second].filter (·.position = p) := by
    by_cases hp : p = 0
    · subst hp
      rfl
    · have hfirst : first.position ≠ p := fun h => hp h.symm
      simp [List.filter_cons, hfirst]
  exact ⟨hsame, (splice_positionwise b [first, second]).2.2.2 [second, first] hsame⟩

end Body

end Resumable
