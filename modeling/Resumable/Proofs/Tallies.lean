import Mathlib.Algebra.GroupWithZero.Nat
import Mathlib.Data.List.Perm.Subperm
import Resumable.Proofs.Truncation
import Resumable.Unit.Tally

/-!
# Work within the input

Each round of a loop reads a byte that no round inside it reads: where it begins.  So all loops
together have no more rounds than the input has bytes, whatever numbers of rounds are asked for, and
a reading that succeeds has never asked for more than there were bytes to come.
`CompiledUnit.decode_within_input` says this of all byte strings, also of those that fail.
-/

namespace Resumable

/-- A number takes a byte at least. -/
theorem Layout.length_bytes_number_pos (n : UInt32) (layout : Layout) :
    1 ≤ (bytes (.number n :: layout)).length := by
  rw [bytes_number, List.length_append]
  exact Nat.le_add_right_of_le (Spelled.varInt n.toNat).length_pos

/-- The later round begins behind the earlier one, or else before it and encloses it. -/
def Round.Before (r r' : Round) : Prop := r.stop ≤ r'.start ∨ r'.start < r.start ∧ r.stop ≤ r'.stop

/-- The place is in the round, and in none of the others but those that began earlier and go on around
this one. -/
structure Round.Owns (r : Round) (rounds : List Round) (p : Nat) : Prop where
  start_le : r.start ≤ p
  lt_stop : p < r.stop
  others : ∀ r' ∈ rounds, r'.start ≤ p → p < r'.stop → r' = r ∨ r'.start < r.start ∧ r.stop ≤ r'.stop

/-- The rounds of the tally are between two places.  Of two of them one is inside the other, without its
first byte, or they're apart. -/
structure Tally.Spans (t : Tally) (start stop : Nat) : Prop where
  inside : ∀ r ∈ t.rounds, start ≤ r.start ∧ r.start < r.stop ∧ r.stop ≤ stop
  nested : t.rounds.Pairwise Round.Before

namespace Tally

@[simp] theorem counts_append (t t' : Tally) : (t ++ t').counts = t.counts ++ t'.counts := rfl

@[simp] theorem begun_append (t t' : Tally) : (t ++ t').begun = t.begun + t'.begun := rfl

@[simp] theorem rounds_append (t t' : Tally) : (t ++ t').rounds = t.rounds ++ t'.rounds := rfl

@[simp] theorem empty_append (t : Tally) : empty ++ t = t := by
  apply Tally.ext
  · rfl
  · exact Nat.zero_add t.begun
  · rfl

theorem spans_empty (start stop : Nat) : empty.Spans start stop where
  inside r hr := by cases hr
  nested := .nil

namespace Spans

variable {t t' : Tally} {start stop start' stop' : Nat}

theorem widen (h : t.Spans start stop) (hstart : start' ≤ start) (hstop : stop ≤ stop') :
    t.Spans start' stop' := by
  refine ⟨fun r hr => ?_, h.nested⟩
  obtain ⟨hfrom, hround, hto⟩ := h.inside r hr
  exact ⟨Nat.le_trans hstart hfrom, hround, Nat.le_trans hto hstop⟩

/-- What's read later is behind what was read before. -/
theorem append (h : t.Spans start stop) (h' : t'.Spans start' stop') (hstart : start ≤ start')
    (hbehind : stop ≤ start') (hstop : stop ≤ stop') : (t ++ t').Spans start stop' := by
  have hw := h.widen (Nat.le_refl start) hstop
  have hw' := h'.widen hstart (Nat.le_refl stop')
  refine ⟨fun r hr => ?_, List.pairwise_append.2 ⟨h.nested, h'.nested, fun r hr r' hr' => ?_⟩⟩
  · rcases List.mem_append.1 hr with hr | hr
    · exact hw.inside r hr
    · exact hw'.inside r hr
  · have := h.inside r hr
    have := h'.inside r' hr'
    exact .inl (by omega)

/-- The rounds begin at different places. -/
theorem nodup_starts (h : t.Spans start stop) : (t.rounds.map Round.start).Nodup := by
  rw [List.Nodup, List.pairwise_map]
  apply h.nested.imp_of_mem
  intro r r' hr hr' hbefore
  have := h.inside r hr
  unfold Round.Before at hbefore
  omega

/-- Each round begins with a byte of its own. -/
theorem owns_start (h : t.Spans start stop) {r : Round} (hr : r ∈ t.rounds) :
    r.Owns t.rounds r.start := by
  have hround := (h.inside r hr).2.1
  refine ⟨Nat.le_refl _, hround, ?_⟩
  intro r' hr' hfrom hto
  obtain ⟨i, hi, rfl⟩ := List.getElem_of_mem hr
  obtain ⟨j, hj, rfl⟩ := List.getElem_of_mem hr'
  rcases Nat.lt_trichotomy i j with hij | rfl | hji
  · have := List.pairwise_iff_getElem.1 h.nested i j hi hj hij
    unfold Round.Before at this
    exact .inr (by omega)
  · exact .inl rfl
  · have := List.pairwise_iff_getElem.1 h.nested j i hj hi hji
    unfold Round.Before at this
    omega

/-- There are at most as many rounds as bytes. -/
theorem length_le (h : t.Spans start stop) : t.rounds.length ≤ stop - start := by
  have hsub : t.rounds.map Round.start ⊆ List.range' start (stop - start) := by
    intro p hp
    obtain ⟨r, hr, rfl⟩ := List.mem_map.1 hp
    have := h.inside r hr
    rw [List.mem_range'_1]
    omega
  have hlength := (h.nodup_starts.subperm hsub).length_le
  rwa [List.length_map, List.length_range'] at hlength

end Spans

end Tally

namespace Decoder

variable {α : Type} {d : Decoder α}

/-- What's read takes at least so many bytes from the front of what's left. -/
def Passes (d : Decoder α) (own : Nat) : Prop :=
  ∀ {c c' : ByteCursor} {x : α}, d.run c = .ok (x, c') →
    c.position + own ≤ c'.position ∧ c'.stop = c.stop

/-- Bytes that spell a layout are no fewer than the layout's own. -/
theorem passes_of_takes {layout : α → Layout} {own : Nat} (hown : ∀ x, own ≤ (layout x).bytes.length)
    (h : ∀ {c c' : ByteCursor} {x : α}, d.run c = .ok (x, c') → (layout x).Takes c c') :
    d.Passes own := by
  intro c c' x hx
  obtain ⟨bytes, hspells, hrest, hposition⟩ := h hx
  have hlength := hspells.length_bytes_le
  have := hown x
  constructor
  · omega
  · rw [ByteCursor.stop, ByteCursor.stop, hrest, hposition, List.length_append]
    omega

theorem Reads.passes {P : α → Prop} {layout : α → Layout} {own : Nat} (h : d.Reads P layout)
    (hown : ∀ x, own ≤ (layout x).bytes.length) : d.Passes own :=
  passes_of_takes hown fun hx => (h.run_eq_ok.1 hx).2

section
variable (method : String) (placed seen : List Label)

/-- What's read of a stack map in one round. -/
def placedEntry : Decoder StackMapEntry := do
  let entry ← stackMapEntry
  if entry.label ∉ placed then throw (.unknownStackMapLabel method entry.label)
  if entry.label ∈ seen then throw (.labels method (.duplicate entry.label))
  return entry

theorem stackMap_succ (n : Nat) :
    stackMap method placed seen (n + 1) = (do
      let entry ← placedEntry method placed seen
      let entries ← stackMap method placed (entry.label :: seen) n
      return entry :: entries) := by
  rw [stackMap, placedEntry, bind_assoc]
  apply bind_congr
  intro entry
  dsimp only
  by_cases hplaced : entry.label ∉ placed
  · rw [if_pos hplaced, if_pos hplaced]
    rfl
  · rw [if_neg hplaced, if_neg hplaced]
    by_cases hseen : entry.label ∈ seen
    · rw [if_pos hseen, if_pos hseen]
      rfl
    · rw [if_neg hseen, if_neg hseen, pure_bind]

end

theorem takes_of_run_mark {c c' : ByteCursor} {x : Unit} (h : mark.run c = .ok (x, c')) :
    Layout.Takes [.raw Encoding.magic] c c' := by
  rw [mark, run_get_bind] at h
  split at h
  · exact (run_throw_eq_ok.1 h).elim
  · rename_i front rest hsplit
    obtain ⟨hmagic, h⟩ := run_check_eq_ok.1 h
    obtain rfl := run_set_eq_ok.1 h
    obtain rfl := Decidable.not_not.1 hmagic
    exact Layout.takes_raw.2 ⟨(split?_eq_some.1 hsplit).2, rfl⟩

theorem unit_eq : unit = mark >>= fun _ => content := by
  rw [unit, mark, bind_assoc]
  apply bind_congr
  intro cursor
  cases split? 4 cursor.rest with
  | none => rfl
  | some parts =>
      dsimp only
      by_cases hmagic : parts.1 ≠ Encoding.magic
      · rw [if_pos hmagic, if_pos hmagic]
        rfl
      · rw [if_neg hmagic, if_neg hmagic]
        rfl

end Decoder

section
variable {α : Type}

/-- How many rounds reading a list takes, if each of its elements takes so many besides its own. -/
def roundsOf (rounds : α → Nat) (xs : List α) : Nat := (xs.map fun x => rounds x + 1).sum

theorem roundsOf_cons (rounds : α → Nat) (x : α) (xs : List α) :
    roundsOf rounds (x :: xs) = rounds x + 1 + roundsOf rounds xs := List.sum_cons

theorem length_le_roundsOf (rounds : α → Nat) (xs : List α) : xs.length ≤ roundsOf rounds xs := by
  induction xs with
  | nil => exact Nat.le_refl 0
  | cons x xs ih =>
      rw [List.length_cons, roundsOf_cons]
      omega

theorem roundsOf_zero (xs : List α) : roundsOf (fun _ => 0) xs = xs.length := by
  induction xs with
  | nil => rfl
  | cons x xs ih =>
      rw [List.length_cons, roundsOf_cons, ih, Nat.zero_add, Nat.add_comm]

end

/-- How many rounds reading what follows the opcode takes. -/
def Instruction.rounds : Instruction → Nat
  | .tableSwitch _ _ targets => targets.length
  | .lookupSwitch _ cases => cases.length
  | _ => 0

def StackMapEntry.rounds (e : StackMapEntry) : Nat := e.frame.locals.length + e.frame.stack.length

def Method.rounds (m : Method) : Nat :=
  roundsOf Instruction.rounds m.body.instructions + roundsOf StackMapEntry.rounds m.stackMap

def CompiledUnit.rounds (u : CompiledUnit) : Nat := roundsOf Method.rounds u.methods

theorem Instruction.rounds_eq_zero {i : Instruction} (htable : i.opcode ≠ .tableSwitch)
    (hlookup : i.opcode ≠ .lookupSwitch) : i.rounds = 0 := by
  cases i with
  | tableSwitch low otherwise targets => exact absurd rfl htable
  | lookupSwitch otherwise cases => exact absurd rfl hlookup
  | _ => rfl

namespace Tallied

variable {α β : Type} {m : Tallied α} {d : Decoder α} {f : α → Tallied β} {g : α → Decoder β}
  {own own' depth base : Nat} {size : α → Nat} {sizeOf : β → Nat}

/-- Reading with the tally gives what reading without it gives, and the tally is a good one.

The rounds lie behind the reader's own first bytes.  If the reading succeeds, all rounds that were
begun have been gone through, there are as many as the size of what's read tells (counted on from
`base`), and none of the numbers of rounds was larger than that of the bytes behind it.  If it fails,
it fails in at most `depth` rounds, one inside the other. -/
structure Keeps (m : Tallied α) (d : Decoder α) (own depth base : Nat) (size : α → Nat) : Prop where
  answers : ∀ c, (m.run c).1 = d.run c
  passes : d.Passes own
  gives : ∀ {c c' : ByteCursor} {x : α}, d.run c = .ok (x, c') →
    (m.run c).2.Spans (c.position + own) c'.position ∧ (m.run c).2.begun = (m.run c).2.rounds.length ∧
      base + (m.run c).2.rounds.length = size x ∧ ∀ n ∈ (m.run c).2.counts, n.1 ≤ n.2
  fails : ∀ {c : ByteCursor} {e : DecodeError}, d.run c = .error e →
    (m.run c).2.Spans (c.position + own) c.stop ∧ (m.run c).2.begun ≤ (m.run c).2.rounds.length + depth

/-- What has no loop has nothing to note. -/
theorem keeps_plain (hpasses : d.Passes own)
    (hsize : ∀ {c c' : ByteCursor} {x : α}, d.run c = .ok (x, c') → base = size x) :
    (plain d).Keeps d own depth base size where
  answers c := rfl
  passes := hpasses
  gives h := ⟨Tally.spans_empty _ _, rfl, hsize h, fun n hn => by cases hn⟩
  fails h := ⟨Tally.spans_empty _ _, Nat.zero_le _⟩

theorem run_bind_of_ok {c c' : ByteCursor} {x : α} (h : (m.run c).1 = .ok (x, c')) :
    (m >>= f).run c = (((f x).run c').1, (m.run c).2 ++ ((f x).run c').2) := by
  cases hm : m.run c with
  | mk result t =>
      rw [hm] at h
      obtain rfl : result = .ok (x, c') := h
      simp only [bind, hm]

theorem run_bind_of_error {c : ByteCursor} {e : DecodeError} (h : (m.run c).1 = .error e) :
    (m >>= f).run c = (.error e, (m.run c).2) := by
  cases hm : m.run c with
  | mk result t =>
      rw [hm] at h
      obtain rfl : result = .error e := h
      simp only [bind, hm]

theorem Keeps.bind (hm : m.Keeps d own depth base size)
    (hf : ∀ x, (f x).Keeps (g x) own' depth (size x) sizeOf) :
    (m >>= f).Keeps (d >>= g) own depth base sizeOf where
  answers c := by
    rw [StateT.run_bind]
    cases hd : d.run c with
    | error e =>
        rw [run_bind_of_error ((hm.answers c).trans hd)]
        rfl
    | ok read =>
        rw [run_bind_of_ok ((hm.answers c).trans hd), (hf read.1).answers]
        rfl
  passes {c c' y} hy := by
    obtain ⟨x, c₁, hx, hy⟩ := Decoder.run_bind_eq_ok.1 hy
    obtain ⟨hposition, hstop⟩ := hm.passes hx
    obtain ⟨hposition', hstop'⟩ := (hf x).passes hy
    exact ⟨by omega, hstop'.trans hstop⟩
  gives {c c' y} hy := by
    obtain ⟨x, c₁, hx, hy⟩ := Decoder.run_bind_eq_ok.1 hy
    obtain ⟨hspans, hbegun, hsize, hcounts⟩ := hm.gives hx
    obtain ⟨hspans', hbegun', hsize', hcounts'⟩ := (hf x).gives hy
    have hposition := (hm.passes hx).1
    have hposition' := ((hf x).passes hy).1
    rw [run_bind_of_ok ((hm.answers c).trans hx)]
    refine ⟨hspans.append hspans' (by omega) (by omega) (by omega), ?_, ?_, ?_⟩
    · rw [Tally.begun_append, Tally.rounds_append, List.length_append, hbegun, hbegun']
    · rw [Tally.rounds_append, List.length_append, ← Nat.add_assoc, hsize, hsize']
    · intro n hn
      rcases List.mem_append.1 hn with hn | hn
      · exact hcounts n hn
      · exact hcounts' n hn
  fails {c e} he := by
    rcases Decoder.run_bind_eq_error.1 he with he | ⟨x, c₁, hx, he⟩
    · rw [run_bind_of_error ((hm.answers c).trans he)]
      exact hm.fails he
    · obtain ⟨hspans, hbegun, -, -⟩ := hm.gives hx
      obtain ⟨hspans', hbegun'⟩ := (hf x).fails he
      obtain ⟨hposition, hstop⟩ := hm.passes hx
      have hend : c₁.position ≤ c₁.stop := Nat.le_add_right ..
      rw [run_bind_of_ok ((hm.answers c).trans hx)]
      refine ⟨hspans.append (hstop ▸ hspans') (by omega) (by omega) (by omega), ?_⟩
      rw [Tally.begun_append, Tally.rounds_append, List.length_append]
      omega

theorem keeps_pure {x : α} (hsize : base = size x) :
    (pure x : Tallied α).Keeps (pure x) 0 depth base size := by
  have hplain : (pure x : Tallied α) = plain (pure x) := rfl
  rw [hplain]
  apply keeps_plain
  · intro c c' y hy
    obtain ⟨-, rfl⟩ := Decoder.run_pure_eq_ok.1 hy
    exact ⟨Nat.le_refl _, rfl⟩
  · intro c c' y hy
    obtain ⟨rfl, -⟩ := Decoder.run_pure_eq_ok.1 hy
    exact hsize

theorem keeps_throw (e : DecodeError) :
    (plain (throw e : Decoder α)).Keeps (throw e) own depth base size :=
  keeps_plain (fun h => (Decoder.run_throw_eq_ok.1 h).elim) fun h => (Decoder.run_throw_eq_ok.1 h).elim

/-- What comes after a check is the same whether or not it's passed, and then isn't reached. -/
theorem Keeps.check {p : Prop} [Decidable p] {e : DecodeError} (hm : m.Keeps d own depth base size) :
    (if p then plain (throw e : Decoder Unit) >>= fun _ => m else m).Keeps
      (if p then (throw e : Decoder Unit) >>= fun _ => d else d) own depth base size := by
  split
  · have hthrow : (plain (throw e : Decoder Unit)).Keeps (throw e) own depth base fun _ => base :=
      keeps_throw e
    exact hthrow.bind fun _ => hm
  · exact hm

theorem run_asked (n : Nat) (c : ByteCursor) :
    (asked n m).run c = ((m.run c).1, ⟨(n, c.rest.length) :: (m.run c).2.counts, (m.run c).2.begun,
      (m.run c).2.rounds⟩) := by
  rw [asked, run_bind_of_ok rfl, run_bind_of_ok rfl]
  apply congrArg ((m.run c).1, ·)
  apply Tally.ext
  · rfl
  · simp [plain, note]
  · rfl

theorem run_round_of_ok {c c' : ByteCursor} {x : α} (h : (m.run c).1 = .ok (x, c')) :
    (round m).run c = (.ok (x, c'), ⟨(m.run c).2.counts, (m.run c).2.begun + 1,
      (m.run c).2.rounds ++ [⟨c.position, c'.position⟩]⟩) := by
  have hlast : (do
      let stop ← plain Decoder.position
      note ⟨[], 0, [⟨c.position, stop⟩]⟩
      return x : Tallied α).run c' = (.ok (x, c'), ⟨[], 0, [⟨c.position, c'.position⟩]⟩) := rfl
  rw [round, run_bind_of_ok rfl, run_bind_of_ok rfl, run_bind_of_ok h, hlast]
  apply congrArg (Except.ok (x, c'), ·)
  apply Tally.ext
  · simp [plain, note, Tally.empty]
  · simp [plain, note, Nat.add_comm]
  · simp [plain, note, Tally.empty]

theorem run_round_of_error {c : ByteCursor} {e : DecodeError} (h : (m.run c).1 = .error e) :
    (round m).run c = (.error e, ⟨(m.run c).2.counts, (m.run c).2.begun + 1, (m.run c).2.rounds⟩) := by
  rw [round, run_bind_of_ok rfl, run_bind_of_ok rfl, run_bind_of_error h]
  apply congrArg (Except.error e, ·)
  apply Tally.ext
  · rfl
  · simp [plain, note, Nat.add_comm]
  · rfl

/-- A loop that succeeds isn't asked for more rounds than there are bytes to come, as each of its rounds
takes one of them. -/
theorem Keeps.asked {n : Nat} (hm : m.Keeps d 0 depth base size)
    (hsize : ∀ {c c' : ByteCursor} {x : α}, d.run c = .ok (x, c') → base + n ≤ size x) :
    (asked n m).Keeps d 0 depth base size where
  answers c := by
    rw [run_asked]
    exact hm.answers c
  passes := hm.passes
  gives {c c' x} hx := by
    obtain ⟨hspans, hbegun, hrounds, hcounts⟩ := hm.gives hx
    have hn : n ≤ c.rest.length := by
      have := hspans.length_le
      have := hsize hx
      have hstop := (hm.passes hx).2
      simp only [ByteCursor.stop] at hstop
      omega
    rw [run_asked]
    refine ⟨⟨hspans.inside, hspans.nested⟩, hbegun, hrounds, ?_⟩
    exact List.forall_mem_cons.2 ⟨hn, hcounts⟩
  fails {c e} he := by
    obtain ⟨hspans, hbegun⟩ := hm.fails he
    rw [run_asked]
    exact ⟨⟨hspans.inside, hspans.nested⟩, hbegun⟩

/-- A round whose body begins with a byte of its own has that byte for itself. -/
theorem Keeps.round (hm : m.Keeps d 1 depth base size) :
    (round m).Keeps d 0 (depth + 1) base fun x => size x + 1 where
  answers c := by
    cases hd : d.run c with
    | error e => rw [run_round_of_error ((hm.answers c).trans hd)]
    | ok read => rw [run_round_of_ok ((hm.answers c).trans hd)]
  passes hx := ⟨Nat.le_of_succ_le (hm.passes hx).1, (hm.passes hx).2⟩
  gives {c c' x} hx := by
    obtain ⟨hspans, hbegun, hrounds, hcounts⟩ := hm.gives hx
    have hposition := (hm.passes hx).1
    rw [run_round_of_ok ((hm.answers c).trans hx)]
    refine ⟨⟨?_, ?_⟩, ?_, ?_, hcounts⟩
    · intro r hr
      rcases List.mem_append.1 hr with hr | hr
      · have := hspans.inside r hr
        omega
      · obtain rfl := List.mem_singleton.1 hr
        exact ⟨Nat.le_refl _, hposition, Nat.le_refl _⟩
    · apply List.pairwise_append.2 ⟨hspans.nested, List.pairwise_singleton .., ?_⟩
      intro r hr r' hr'
      obtain rfl := List.mem_singleton.1 hr'
      obtain ⟨hstart, -, hstop⟩ := hspans.inside r hr
      exact .inr ⟨hstart, hstop⟩
    · rw [List.length_append, List.length_singleton, hbegun]
    · rw [List.length_append, List.length_singleton, ← Nat.add_assoc, hrounds]
  fails {c e} he := by
    obtain ⟨hspans, hbegun⟩ := hm.fails he
    rw [run_round_of_error ((hm.answers c).trans he)]
    have hw := hspans.widen (Nat.le_succ c.position) (Nat.le_refl _)
    exact ⟨⟨hw.inside, hw.nested⟩, Nat.succ_le_succ hbegun⟩

/-- What's read without a loop has bytes of its own if its layout has. -/
theorem keeps_of_reads {P : α → Prop} {layout : α → Layout} (h : d.Reads P layout)
    (hown : ∀ x, own ≤ (layout x).bytes.length) :
    (plain d).Keeps d own depth base fun _ => base := keeps_plain (h.passes hown) fun _ => rfl

/-- A loop is gone through after the number of its rounds. -/
theorem Keeps.counted {loop : Nat → Tallied α} {read : Nat → Decoder α}
    (hloop : ∀ n, (loop n).Keeps (read n) 0 depth base size)
    (hsize : ∀ {n : Nat} {c c' : ByteCursor} {x : α},
      (read n).run c = .ok (x, c') → base + n ≤ size x) :
    (counted loop).Keeps (Decoder.varInt >>= read) 1 depth base size := by
  apply (keeps_of_reads Decoder.varInt_reads fun _ => Layout.length_bytes_number_pos _ []).bind
  intro n
  exact (hloop n).asked hsize

section
variable {rounds : α → Nat}

theorem Keeps.many (hm : ∀ base, m.Keeps d 1 depth base fun x => base + rounds x) (n base : Nat) :
    (many m n).Keeps (Decoder.many d n) 0 (depth + 1) base fun xs => base + roundsOf rounds xs := by
  induction n generalizing base with
  | zero => exact keeps_pure rfl
  | succ n ih =>
      apply (hm base).round.bind
      intro x
      apply (ih (base + rounds x + 1)).bind
      intro xs
      apply keeps_pure
      rw [roundsOf_cons]
      omega

theorem length_of_run_many {n : Nat} {c c' : ByteCursor} {xs : List α}
    (h : (Decoder.many d n).run c = .ok (xs, c')) : xs.length = n := by
  induction n generalizing c c' xs with
  | zero =>
      obtain ⟨rfl, -⟩ := Decoder.run_pure_eq_ok.1 h
      rfl
  | succ n ih =>
      obtain ⟨x, c₁, -, h⟩ := Decoder.run_bind_eq_ok.1 h
      obtain ⟨xs, c₂, hxs, h⟩ := Decoder.run_bind_eq_ok.1 h
      obtain ⟨rfl, -⟩ := Decoder.run_pure_eq_ok.1 h
      rw [List.length_cons, ih hxs]

theorem Keeps.list (hm : ∀ base, m.Keeps d 1 depth base fun x => base + rounds x) (base : Nat) :
    (list m).Keeps (Decoder.list d) 1 (depth + 1) base fun xs => base + roundsOf rounds xs := by
  apply Keeps.counted fun n => Keeps.many hm n base
  intro n c c' xs hxs
  have := length_le_roundsOf rounds xs
  rw [length_of_run_many hxs] at this
  omega

end

open Decoder

/-- What comes before a loop takes bytes, but doesn't have to. -/
theorem keeps_ahead {α : Type} {d : Decoder α} {P : α → Prop} {layout : α → Layout}
    (h : d.Reads P layout) (base : Nat) : (plain d).Keeps d 0 depth base fun _ => base :=
  keeps_of_reads h fun _ => Nat.zero_le _

theorem keeps_label (base : Nat) : (plain Decoder.label).Keeps label 1 depth base fun _ => base + 0 :=
  keeps_of_reads label_reads fun l => Layout.length_bytes_number_pos l.number []

theorem keeps_switchCase (base : Nat) :
    (plain Decoder.switchCase).Keeps switchCase 1 depth base fun _ => base + 0 :=
  keeps_of_reads switchCase_reads fun x => by
    rw [Layout.bytes_ofCase, List.length_append]
    exact Nat.le_add_left_of_le (Spelled.varInt x.2.number.toNat).length_pos

theorem keeps_frameValue (base : Nat) :
    (plain Decoder.frameValue).Keeps frameValue 1 depth base fun _ => base + 0 :=
  keeps_of_reads frameValue_reads fun v => by
    cases v with
    | reference t => exact Nat.le_add_left 1 _
    | _ => exact Nat.le_refl 1

/-- Only switches have loops. -/
theorem keeps_plain_operands {o : Opcode} (htable : o ≠ .tableSwitch) (hlookup : o ≠ .lookupSwitch)
    (base : Nat) :
    (plain (Decoder.operands o)).Keeps (Decoder.operands o) 0 depth base fun i => base + i.rounds := by
  apply keeps_plain
  · exact passes_of_takes (fun _ => Nat.zero_le _) fun h => (sound_operands h).2.2
  · intro c c' i hi
    obtain ⟨rfl, -, -⟩ := sound_operands hi
    rw [Instruction.rounds_eq_zero htable hlookup, Nat.add_zero]

theorem keeps_operands (o : Opcode) (base : Nat) :
    (operands o).Keeps (Decoder.operands o) 0 1 base fun i => base + i.rounds := by
  cases o with
  | tableSwitch =>
      apply (keeps_ahead int_reads base).bind
      intro low
      apply (keeps_ahead label_reads base).bind
      intro otherwise
      apply (Keeps.list keeps_label base).bind
      intro targets
      apply keeps_pure
      rw [roundsOf_zero, Instruction.rounds]
  | lookupSwitch =>
      apply (keeps_ahead label_reads base).bind
      intro otherwise
      apply (Keeps.list keeps_switchCase base).bind
      intro cases
      apply keeps_pure
      rw [roundsOf_zero, Instruction.rounds]
  | _ => exact keeps_plain_operands (by decide) (by decide) base

theorem keeps_instruction (base : Nat) :
    instruction.Keeps Decoder.instruction 1 1 base fun i => base + i.rounds := by
  apply (keeps_of_reads opcode_reads fun o => Nat.le_refl 1).bind
  intro o
  exact keeps_operands o base

theorem keeps_stackMapEntry (base : Nat) :
    stackMapEntry.Keeps Decoder.stackMapEntry 1 1 base fun e => base + e.rounds := by
  apply (keeps_label base).bind
  intro l
  apply (Keeps.list keeps_frameValue base).bind
  intro locals
  apply (Keeps.list keeps_frameValue _).bind
  intro stack
  apply keeps_pure
  rw [roundsOf_zero, roundsOf_zero, StackMapEntry.rounds, List.length_reverse, Nat.add_assoc]

section
variable (method : String) (placed seen : List Label)

theorem keeps_placedEntry (base : Nat) :
    (placedEntry method placed seen).Keeps (Decoder.placedEntry method placed seen) 1 1 base
      fun e => base + e.rounds := by
  apply (keeps_stackMapEntry base).bind
  intro entry
  apply Keeps.check
  apply Keeps.check
  apply keeps_pure
  rfl

theorem keeps_stackMap (n base : Nat) :
    (stackMap method placed seen n).Keeps (Decoder.stackMap method placed seen n) 0 2 base
      fun es => base + roundsOf StackMapEntry.rounds es := by
  induction n generalizing seen base with
  | zero => exact keeps_pure rfl
  | succ n ih =>
      rw [stackMap_succ]
      apply (keeps_placedEntry method placed seen base).round.bind
      intro entry
      apply (ih (entry.label :: seen) (base + entry.rounds + 1)).bind
      intro entries
      apply keeps_pure
      rw [roundsOf_cons]
      omega

theorem keeps_entries (base : Nat) :
    (counted (stackMap method placed seen)).Keeps (varInt >>= Decoder.stackMap method placed seen) 1 2
      base fun es => base + roundsOf StackMapEntry.rounds es := by
  apply Keeps.counted fun n => keeps_stackMap method placed seen n base
  intro n c c' es hes
  have := length_le_roundsOf StackMapEntry.rounds es
  rw [(run_stackMap_eq_ok.1 hes).1] at this
  omega

end

theorem keeps_method (base : Nat) :
    method.Keeps Decoder.method 1 2 base fun m => base + m.rounds := by
  have haccess : (plain (fixed 2)).Keeps (fixed 2) 1 2 base fun _ => base :=
    keeps_of_reads (fixed_reads 2) fun n => Nat.le_succ 1
  apply haccess.bind
  intro access
  apply (keeps_ahead text_reads base).bind
  intro name
  apply (keeps_ahead methodType_reads base).bind
  intro type
  apply (keeps_ahead index_reads base).bind
  intro maxStack
  apply (keeps_ahead index_reads base).bind
  intro maxLocals
  apply (Keeps.list keeps_instruction base).bind
  intro instructions
  dsimp only
  cases (Body.ofList instructions).labelPositions with
  | ok places =>
      dsimp only
      rw [← bind_assoc]
      apply (keeps_entries (name ++ type.text) (places.map (·.1)) [] _).bind
      intro entries
      apply keeps_pure
      exact Nat.add_assoc ..
  | error cause => exact keeps_throw (.labels (name ++ type.text) cause)

theorem keeps_mark : (plain mark).Keeps mark 0 depth 0 fun _ => 0 :=
  keeps_plain (passes_of_takes (fun _ => Nat.zero_le _) takes_of_run_mark) fun _ => rfl

theorem keeps_unit : unit.Keeps Decoder.unit 0 3 0 CompiledUnit.rounds := by
  rw [unit_eq]
  apply keeps_mark.bind
  intro _
  apply (keeps_ahead byte_reads 0).bind
  intro version
  apply Keeps.check
  apply (keeps_ahead byte_reads 0).bind
  intro flags
  apply (keeps_ahead text_reads 0).bind
  intro name
  apply (Keeps.list keeps_method 0).bind
  intro methods
  apply keeps_pure
  exact Nat.zero_add _

end Tallied

namespace CompiledUnit

theorem decodeTallied_eq (bytes : Bytes) :
    decodeTallied bytes = (decode bytes, (Tallied.unit.run ⟨0, bytes⟩).2) := by
  have hanswers := Tallied.keeps_unit.answers ⟨0, bytes⟩
  rw [decode, ← hanswers, decodeTallied]
  cases Tallied.unit.run ⟨0, bytes⟩ with
  | mk result t =>
      cases result with
      | error e => rfl
      | ok read =>
          obtain ⟨u, c⟩ := read
          apply congrArg (·, t)
          rw [Except.ok_bind]
          dsimp only
          split <;> rfl

/-- Whether or not a unit is read, the rounds are inside the input, and those that were begun in vain
are few. -/
theorem spans_run_unit (bytes : Bytes) :
    (Tallied.unit.run ⟨0, bytes⟩).2.Spans 0 bytes.length ∧
      (Tallied.unit.run ⟨0, bytes⟩).2.begun ≤ (Tallied.unit.run ⟨0, bytes⟩).2.rounds.length + 3 := by
  have hsize : (ByteCursor.mk 0 bytes).stop = bytes.length := Nat.zero_add bytes.length
  cases hrun : Decoder.unit.run ⟨0, bytes⟩ with
  | error e =>
      obtain ⟨hspans, hbegun⟩ := Tallied.keeps_unit.fails hrun
      exact ⟨hsize ▸ hspans, hbegun⟩
  | ok read =>
      obtain ⟨hspans, hbegun, -, -⟩ := Tallied.keeps_unit.gives hrun
      have hstop := (Tallied.keeps_unit.passes hrun).2
      rw [hsize] at hstop
      have hposition : read.2.position ≤ bytes.length := by
        rw [← hstop]
        exact Nat.le_add_right ..
      exact ⟨hspans.widen (Nat.le_refl 0) hposition, by omega⟩

/-- Reading is bounded by the input, whatever numbers of rounds are asked for.

Reading with a tally gives what reading without it gives.  All rounds that are gone through are within
the input and have a byte of their own, so there are no more of them than bytes; besides them, a round
may have been begun in vain in each of three loops, one inside the other.  If a unit is read, there was
none in vain, the rounds are those that the unit's contents take, and nowhere were more rounds asked
for than there were bytes to come. -/
theorem decode_within_input (bytes : Bytes) :
    ∃ t, decodeTallied bytes = (decode bytes, t) ∧
      (∀ r ∈ t.rounds, r.stop ≤ bytes.length ∧ ∃ p, r.Owns t.rounds p) ∧ t.rounds.Nodup ∧
      t.rounds.length ≤ bytes.length ∧ t.begun ≤ t.rounds.length + 3 ∧
      ∀ u, decode bytes = .ok u →
        t.begun = t.rounds.length ∧ t.rounds.length = u.rounds ∧ ∀ n ∈ t.counts, n.1 ≤ n.2 := by
  obtain ⟨hspans, hbegun⟩ := spans_run_unit bytes
  refine ⟨_, decodeTallied_eq bytes, ?_, hspans.nodup_starts.of_map, hspans.length_le, hbegun, ?_⟩
  · intro r hr
    exact ⟨(hspans.inside r hr).2.2, r.start, hspans.owns_start hr⟩
  · intro u hu
    have hrun := run_marked_of_decode hu
    rw [← Decoder.run_unit_of_le (le_length_of_decode hu)] at hrun
    obtain ⟨-, hall, hrounds, hcounts⟩ := Tallied.keeps_unit.gives hrun
    rw [Nat.zero_add] at hrounds
    exact ⟨hall, hrounds, hcounts⟩

/-- A unit with a method of one instruction takes two rounds. -/
theorem decode_within_input_returner :
    decode returnerBytes = .ok returner ∧ ∃ t, decodeTallied returnerBytes = (.ok returner, t) ∧
      t.begun = 2 ∧ t.rounds.length = 2 ∧ ∀ n ∈ t.counts, n.1 ≤ n.2 := by
  obtain ⟨t, ht, -, -, -, -, hgives⟩ := decode_within_input returnerBytes
  obtain ⟨hbegun, hrounds, hcounts⟩ := hgives returner decode_returner
  rw [decode_returner] at ht
  have htwo : returner.rounds = 2 := by decide
  exact ⟨decode_returner, t, ht, by rw [hbegun, hrounds, htwo], by rw [hrounds, htwo], hcounts⟩

-- Of 4294967295 methods that aren't there, one is begun.
example : decodeTallied [0x43, 0x4F, 0x49, 0x4C, 1, 0, 0, 255, 255, 255, 255, 15] =
    (.error (.unexpectedEnd 12), ⟨[(4294967295, 0)], 1, []⟩) := by rfl

end CompiledUnit

end Resumable
