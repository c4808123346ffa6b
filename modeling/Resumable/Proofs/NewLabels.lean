import Resumable.Proofs.Labels
import Resumable.Proofs.Splice

/-!
# New labels and changes of a body

A body's counter starts above the labels that its first instructions use, and new labels are
numbered from there on.  Pushing instructions and editing the body don't look at the labels that
come in with them.  So a new label differs from all labels that have been given before, and it's
used nowhere in the body, unless a change has brought it in ahead of time: while its number was
still to come.
-/

namespace Resumable

/-- A change of a body. -/
inductive Change
  | push (i : Instruction)
  | splice (edits : List Edit)
  | newLabel

namespace Change

/-- The instructions that a change brings in. -/
def inserted : Change → List Instruction
  | push i => [i]
  | splice edits => Edit.appended edits
  | newLabel => []

/-- The labels that come in with a change. -/
def labels (c : Change) : List Label := c.inserted.flatMap Instruction.labels

end Change

namespace Body

/-- The labels that the body's instructions place or may jump to. -/
def used (b : Body) : List Label := b.instructions.flatMap Instruction.labels

/-- The body after a change. -/
def change (b : Body) : Change → Body
  | .push i => b.push i
  | .splice edits => b.splice edits
  | .newLabel => b.newLabel.2

/-- The label that a change gives. -/
def given? (b : Body) : Change → Option Label
  | .newLabel => some b.newLabel.1
  | _ => none

/-- The labels that a change brings in although their numbers are still to come. -/
def premature (b : Body) (c : Change) : List Label := c.labels.filter (b.nextLabel ≤ ·.number)

/-- The body after changes, one after the other. -/
def changed (b : Body) (changes : List Change) : Body := changes.foldl change b

/-- The labels that changes give. -/
def given (b : Body) : List Change → List Label
  | [] => []
  | c :: changes => (b.given? c).toList ++ given (b.change c) changes

/-- The labels that changes bring in ahead of time. -/
def ahead (b : Body) : List Change → List Label
  | [] => []
  | c :: changes => b.premature c ++ ahead (b.change c) changes

/-- True if the counter is above all labels that have been given, and above those that the body uses
but for the ones that were brought in ahead of time. -/
structure Supplies (b : Body) (given ahead : List Label) : Prop where
  given : ∀ l ∈ given, l.number < b.nextLabel
  used : ∀ l ∈ b.used, l.number < b.nextLabel ∨ l ∈ ahead

variable {b : Body} {c : Change} {changes : List Change} {given ahead : List Label} {l : Label}

theorem empty_eq_ofList : empty = ofList [] := rfl

theorem mem_of_mem_keptInstructions {edits : List Edit} {i : Instruction}
    (h : i ∈ b.keptInstructions edits) : i ∈ b.instructions := by
  obtain ⟨⟨j, p⟩, hjp, hi⟩ := List.mem_flatMap.1 h
  dsimp only at hi
  split at hi
  · cases hi
  · exact List.mem_singleton.1 hi ▸ List.fst_mem_of_mem_zipIdx hjp

/-- A change brings in its own instructions and no others. -/
theorem mem_of_change {i : Instruction} (h : i ∈ (b.change c).instructions) :
    i ∈ b.instructions ∨ i ∈ c.inserted := by
  cases c with
  | push j => exact List.mem_append.1 h
  | splice edits =>
      rw [change, splice_eq] at h
      exact (List.mem_append.1 ((editedInstructions_perm b edits).mem_iff.1 h)).imp
        mem_of_mem_keptInstructions id
  | newLabel => exact .inl h

theorem used_change (h : l ∈ (b.change c).used) : l ∈ b.used ∨ l ∈ c.labels := by
  obtain ⟨i, hi, hl⟩ := List.mem_flatMap.1 h
  rcases mem_of_change hi with hi | hi
  · exact .inl (List.mem_flatMap.2 ⟨i, hi, hl⟩)
  · exact .inr (List.mem_flatMap.2 ⟨i, hi, hl⟩)

/-- Only giving a label moves the counter on. -/
theorem nextLabel_change (b : Body) (c : Change) :
    (b.change c).nextLabel = if (b.given? c).isSome then b.nextLabel + 1 else b.nextLabel := by
  cases c <;> rfl

theorem given?_eq_some (h : b.given? c = some l) : l.number = b.nextLabel := by
  cases c with
  | newLabel =>
      cases h
      rfl
  | _ => cases h

/-- The counter goes up, and it passes a label that it gives. -/
theorem counter_change (numbers : ∀ l ∈ b.given? c, l.number.toNat < 4294967295) :
    b.nextLabel ≤ (b.change c).nextLabel ∧
      ∀ l ∈ b.given? c, l.number < (b.change c).nextLabel := by
  rw [nextLabel_change]
  cases hc : b.given? c with
  | none => simp
  | some k =>
      have hk := given?_eq_some hc
      have hroom : b.nextLabel.toNat < 4294967295 := hk ▸ numbers k hc
      have hnext : b.nextLabel < b.nextLabel + 1 := by
        have hone : UInt32.toNat 1 = 1 := rfl
        rw [UInt32.lt_iff_toNat_lt, UInt32.toNat_add, hone, Nat.mod_eq_of_lt (by omega)]
        exact Nat.lt_succ_self _
      refine ⟨UInt32.le_of_lt hnext, fun l hl => ?_⟩
      obtain rfl := Option.some.inj hl
      exact hk ▸ hnext

/-- A change keeps the counter where it has to be. -/
theorem Supplies.change (h : b.Supplies given ahead)
    (numbers : ∀ l ∈ b.given? c, l.number.toNat < 4294967295) :
    (b.change c).Supplies (given ++ (b.given? c).toList) (ahead ++ b.premature c) := by
  obtain ⟨hle, hgiven⟩ := counter_change numbers
  refine ⟨fun l hl => ?_, fun l hl => ?_⟩
  · rcases List.mem_append.1 hl with hl | hl
    · exact UInt32.lt_of_lt_of_le (h.given l hl) hle
    · exact hgiven l (Option.mem_toList.1 hl)
  · rcases used_change hl with hl | hl
    · rcases h.used l hl with hlt | hahead
      · exact .inl (UInt32.lt_of_lt_of_le hlt hle)
      · exact .inr (List.mem_append_left _ hahead)
    · by_cases hlt : l.number < b.nextLabel
      · exact .inl (UInt32.lt_of_lt_of_le hlt hle)
      · refine .inr (List.mem_append_right _ (List.mem_filter.2 ⟨hl, ?_⟩))
        exact decide_eq_true (UInt32.not_lt.1 hlt)

/-- So do any changes. -/
theorem Supplies.changed (h : b.Supplies given ahead)
    (numbers : ∀ l ∈ b.given changes, l.number.toNat < 4294967295) :
    (b.changed changes).Supplies (given ++ b.given changes) (ahead ++ b.ahead changes) := by
  induction changes generalizing b given ahead with
  | nil => simpa [Body.changed, Body.given, Body.ahead] using h
  | cons c changes ih =>
      rw [Body.given, List.forall_mem_append] at numbers
      have hfirst := h.change (c := c) fun l hl => numbers.1 l (Option.mem_toList.2 hl)
      have hrest := ih hfirst numbers.2
      rwa [List.append_assoc, List.append_assoc] at hrest

/-- The counter starts above the labels in use. -/
theorem supplies_ofList {is : List Instruction}
    (numbers : ∀ l ∈ (ofList is).used, l.number.toNat < 4294967295) :
    (ofList is).Supplies [] [] where
  given _ hl := by cases hl
  used l hl := .inl (number_lt_nextLabel hl (numbers l hl))

/-- After any changes of a body that started out empty or was made from instructions, a new label
differs from all labels that have been given before.  No instruction of the body places it or may
jump to it, unless a change has brought it in ahead of time. -/
theorem newLabel_unique (origin : b = empty ∨ ∃ is, b = ofList is)
    (numbers : ∀ l ∈ b.used ++ b.given changes, l.number.toNat < 4294967295) :
    (b.changed changes).newLabel.1 ∉ b.given changes ∧
      ((b.changed changes).newLabel.1 ∉ b.ahead changes →
        (b.changed changes).newLabel.1 ∉ (b.changed changes).used) := by
  obtain ⟨is, rfl⟩ : ∃ is, b = ofList is := origin.elim (fun h => ⟨[], h.trans empty_eq_ofList⟩) id
  rw [List.forall_mem_append] at numbers
  have h := (supplies_ofList numbers.1).changed numbers.2
  rw [List.nil_append, List.nil_append] at h
  refine ⟨fun hmem => UInt32.lt_irrefl _ (h.given _ hmem), fun hahead hmem => ?_⟩
  exact (h.used _ hmem).elim (UInt32.lt_irrefl _) hahead

/-- Labels that are given as the body grows, and that are put to use. -/
def growth : List Change :=
  [.newLabel, .push (.label ⟨5⟩), .splice [.insertBefore 1 [.goto ⟨5⟩]], .newLabel]

/-- The third new label of a growing body. -/
theorem newLabel_unique_growth :
    ((ofList [.goto ⟨4⟩, .label ⟨4⟩]).changed growth).newLabel.1 = ⟨7⟩ ∧
      ⟨7⟩ ∉ (ofList [.goto ⟨4⟩, .label ⟨4⟩]).given growth ∧
      ⟨7⟩ ∉ ((ofList [.goto ⟨4⟩, .label ⟨4⟩]).changed growth).used := by
  have h := @newLabel_unique (ofList [.goto ⟨4⟩, .label ⟨4⟩]) growth (.inr ⟨_, rfl⟩) (by decide)
  exact ⟨rfl, h.1, h.2 (by decide)⟩

/-- Giving labels moves the counter on by their number. -/
theorem changed_newLabels (b : Body) (n : Nat) :
    b.changed (List.replicate n .newLabel) =
      { b with nextLabel := b.nextLabel + UInt32.ofNat n } := by
  rw [← nextLabel_newLabels]
  induction n generalizing b with
  | zero => rfl
  | succ n ih => exact ih b.newLabel.2

/-- The counter doesn't know of a label that's pushed ahead of time: when it gets there the label is
given, although the body uses it. -/
theorem newLabel_collides {i : Instruction} (hl : l ∈ i.labels) (h : b.nextLabel ≤ l.number) :
    ∃ n, (b.changed (.push i :: List.replicate n .newLabel)).newLabel.1 = l ∧
      l ∈ (b.changed (.push i :: List.replicate n .newLabel)).used := by
  have hchanged := changed_newLabels (b.push i) (l.number.toNat - b.nextLabel.toNat)
  refine ⟨l.number.toNat - b.nextLabel.toNat, ?_, ?_⟩
  · exact congrArg Label.mk ((congrArg nextLabel hchanged).trans (nextLabel_add_sub h))
  · have hinstructions := congrArg instructions hchanged
    rw [used, changed, List.foldl_cons]
    have hlast : i ∈ b.instructions ++ [i] := List.mem_append_right _ (List.mem_singleton.2 rfl)
    exact hinstructions ▸ List.mem_flatMap.2 ⟨i, hlast, hl⟩

example : (empty.push (.label ⟨0⟩)).newLabel.1 ∈ (empty.push (.label ⟨0⟩)).used := by decide

end Body

end Resumable
