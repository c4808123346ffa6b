import Resumable.Proofs.Rules

/-!
# The order of frames

A frame is below another one if each of its values can be used where the other has its own.  Merging
gives the least frame above two frames, and the rules of the instructions keep the order: what can
be done with a frame can be done with every frame below it, and leads to a frame below the other's.

The frames that an analysis meets are well formed: nothing unknown is on the operand stack, and the
second slot of a wide local holds nothing.
-/

namespace Resumable

/-- A list that's related to two lists in a row falls apart in the same way. -/
theorem exists_append_of_forall₂ {α β : Type} {R : α → β → Prop} {l : List α} {l₁ l₂ : List β}
    (h : List.Forall₂ R l (l₁ ++ l₂)) :
    ∃ a b, l = a ++ b ∧ List.Forall₂ R a l₁ ∧ List.Forall₂ R b l₂ :=
  ⟨l.take l₁.length, l.drop l₁.length, (List.take_append_drop ..).symm,
    List.forall₂_take_append _ _ _ h, List.forall₂_drop_append _ _ _ h⟩

theorem forall₂_append {α β : Type} {R : α → β → Prop} {a b : List α} {c d : List β}
    (h : List.Forall₂ R a c) (k : List.Forall₂ R b d) : List.Forall₂ R (a ++ b) (c ++ d) :=
  List.rel_append h k

/-- What is related to a member of a list is found at the same place. -/
theorem getElem?_of_forall₂ {α β : Type} {R : α → β → Prop} {l₁ : List α} {l₂ : List β}
    (h : List.Forall₂ R l₁ l₂) {n : Nat} {b : β} (hb : l₂[n]? = some b) :
    ∃ a, l₁[n]? = some a ∧ R a b := by
  induction h generalizing n with
  | nil => simp at hb
  | cons hab h ih =>
      cases n with
      | zero =>
          obtain rfl : _ = b := by simpa using hb
          exact ⟨_, rfl, hab⟩
      | succ n => simpa using ih (by simpa using hb)

theorem exists_mem_of_forall₂ {α β : Type} {R : α → β → Prop} {l₁ : List α} {l₂ : List β}
    (h : List.Forall₂ R l₁ l₂) {a : α} (ha : a ∈ l₁) : ∃ b ∈ l₂, R a b := by
  obtain ⟨i, hi⟩ := List.mem_iff_getElem?.1 ha
  obtain ⟨b, hb, hab⟩ := getElem?_of_forall₂ (List.Forall₂.flip h) hi
  exact ⟨b, List.mem_of_getElem? hb, hab⟩

theorem forall₂_set {α β : Type} {R : α → β → Prop} {l₁ : List α} {l₂ : List β}
    (h : List.Forall₂ R l₁ l₂) (n : Nat) {a : α} {b : β} (hab : R a b) :
    List.Forall₂ R (l₁.set n a) (l₂.set n b) := by
  induction h generalizing n with
  | nil => exact .nil
  | cons hcd h ih =>
      cases n with
      | zero => exact .cons hab h
      | succ n => exact .cons hcd (ih n)

namespace FrameValue

/-- True if a value known as the first one can be used where the second one is expected. -/
def Below (a b : FrameValue) : Prop := b.isAssignableFrom a

theorem below_top (a : FrameValue) : a.Below top := rfl

theorem Below.trans {a b c : FrameValue} (h : a.Below b) (k : b.Below c) : a.Below c :=
  isAssignableFrom_trans k h

theorem Below.antisymm {a b : FrameValue} (h : a.Below b) (k : b.Below a) : a = b :=
  isAssignableFrom_antisymm k h

theorem Below.refl {a : FrameValue} (h : a.IsProper) : a.Below a := isAssignableFrom_refl h

theorem Below.ne_top {a b : FrameValue} (h : a.Below b) (hb : b ≠ top) : a ≠ top := by
  rintro rfl
  exact hb (eq_top_of_isAssignableFrom_top h)

theorem Below.slots {a b : FrameValue} (h : a.Below b) (hb : b ≠ top) : a.slots = b.slots := by
  simp only [FrameValue.slots, isWide_eq_of_isAssignableFrom h hb]

theorem ne_top_of_kind {v : FrameValue} {kind : ValueKind} (h : v.kind? = some kind) : v ≠ top := by
  rintro rfl
  cases h

theorem eq_top_of_kind {v : FrameValue} (h : v.kind? = none) : v = top := by
  cases v <;> first | rfl | cases h

theorem Below.kind {a b : FrameValue} {kind : ValueKind} (h : a.Below b)
    (hb : b.kind? = some kind) : a.kind? = some kind :=
  kind_eq_of_isAssignableFrom h (ne_top_of_kind hb) ▸ hb

theorem eq_of_below_int {v : FrameValue} (h : v.Below int) : v = int := by
  cases v <;> simp_all [Below, isAssignableFrom]

theorem ofType_ne_top (t : ValueType) : ofType t ≠ top := by
  cases t <;> simp [ofType]

theorem kind_ofType (t : ValueType) : (ofType t).kind? = some t.kind := by
  cases t <;> rfl

theorem isProper_ofKind (kind : ValueKind) : (ofKind kind).IsProper := by
  intro t h
  cases kind <;> simp_all [ofKind]
  simp [← h, ValueType.root, ValueType.isReference]

theorem ofKind_ne_top (kind : ValueKind) : ofKind kind ≠ top := by
  cases kind <;> simp [ofKind]

namespace ArrayOf

variable {v element : FrameValue} {kind : ValueKind}

theorem element_ne_top (h : v.ArrayOf kind element) : element ≠ top := by
  cases h with
  | null =>
      split
      · simp
      · exact ofKind_ne_top kind
  | array type => exact ofType_ne_top type

theorem element_isProper (h : v.ArrayOf kind element) : element.IsProper := by
  cases h with
  | null =>
      split
      · simp [IsProper]
      · exact isProper_ofKind kind
  | array type => exact isProper_ofType type

/-- Below an array there are only null and arrays whose elements are below its own. -/
theorem mono (h : v.ArrayOf kind element) {v' : FrameValue} (hv : v'.Below v) :
    ∃ element', v'.ArrayOf kind element' ∧ element'.Below element := by
  cases h with
  | null =>
      obtain rfl : v' = .null := by cases v' <;> simp_all [Below, isAssignableFrom]
      refine ⟨_, .null kind, .refl ?_⟩
      exact element_isProper (.null kind)
  | array type =>
      cases v' with
      | null =>
          refine ⟨_, .null type.kind, ?_⟩
          cases type <;> rfl
      | reference t =>
          cases t with
          | array other =>
              simp only [Below, isAssignableFrom, ValueType.isAssignableFrom] at hv
              split at hv
              · rename_i hr
                simp only [Bool.and_eq_true] at hr
                have hk : other.kind = type.kind := by
                  cases other <;> cases type <;> simp_all [ValueType.isReference, ValueType.kind]
                refine ⟨ofType other, hk ▸ .array other, ?_⟩
                cases other <;> cases type <;>
                  simp_all [ValueType.isReference, Below, ofType, isAssignableFrom]
              · obtain rfl : type = other := by simpa using hv
                exact ⟨_, .array type, .refl (isProper_ofType type)⟩
          | _ => simp [Below, isAssignableFrom, ValueType.isAssignableFrom] at hv
      | _ => simp [Below, isAssignableFrom] at hv

end ArrayOf

end FrameValue

namespace Frame

/-- True if each value of the first frame can be used where the second one has its own. -/
structure Below (f g : Frame) : Prop where
  locals : List.Forall₂ FrameValue.Below f.locals g.locals
  stack : List.Forall₂ FrameValue.Below f.stack g.stack

/-- True if no wide local is the last one, and the second slot of each holds nothing. -/
def Paired (locals : List FrameValue) : Prop :=
  ∀ i v, locals[i]? = some v → v.isWide → locals[i + 1]? = some .top

/-- The frames of a method with the given number of locals. -/
structure WellFormed (maxLocals : Nat) (f : Frame) : Prop where
  localsLength : f.locals.length = maxLocals
  wide : Paired f.locals
  known : ∀ v ∈ f.stack, v ≠ .top
  localsProper : ∀ v ∈ f.locals, v.IsProper
  stackProper : ∀ v ∈ f.stack, v.IsProper

theorem forall₂_below_refl {values : List FrameValue} (h : ∀ v ∈ values, v.IsProper) :
    List.Forall₂ FrameValue.Below values values :=
  List.forall₂_same.2 fun v hv => .refl (h v hv)

theorem forall₂_below_trans {a b c : List FrameValue} (h : List.Forall₂ FrameValue.Below a b)
    (k : List.Forall₂ FrameValue.Below b c) : List.Forall₂ FrameValue.Below a c := by
  induction h generalizing c with
  | nil => exact k
  | cons h _ ih =>
      cases k with
      | cons k hk => exact .cons (h.trans k) (ih hk)

theorem forall₂_below_antisymm {a b : List FrameValue} (h : List.Forall₂ FrameValue.Below a b)
    (k : List.Forall₂ FrameValue.Below b a) : a = b := by
  induction h with
  | nil => rfl
  | cons h _ ih =>
      cases k with
      | cons k hk => rw [h.antisymm k, ih hk]

theorem Below.refl {maxLocals : Nat} {f : Frame} (h : f.WellFormed maxLocals) : f.Below f :=
  ⟨forall₂_below_refl h.localsProper, forall₂_below_refl h.stackProper⟩

theorem Below.trans {f g h : Frame} (hfg : f.Below g) (hgh : g.Below h) : f.Below h :=
  ⟨forall₂_below_trans hfg.locals hgh.locals, forall₂_below_trans hfg.stack hgh.stack⟩

theorem Below.antisymm {f g : Frame} (hfg : f.Below g) (hgf : g.Below f) : f = g := by
  obtain ⟨locals, stack⟩ := f
  obtain ⟨locals', stack'⟩ := g
  obtain rfl : locals = locals' := forall₂_below_antisymm hfg.locals hgf.locals
  obtain rfl : stack = stack' := forall₂_below_antisymm hfg.stack hgf.stack
  rfl

/-- Frames whose stacks are known take as many slots as those above them. -/
theorem Below.stackSlots {f g : Frame} (h : f.Below g) (known : ∀ v ∈ g.stack, v ≠ .top) :
    f.stackSlots = g.stackSlots := by
  simp only [Frame.stackSlots]
  have hs := h.stack
  generalize f.stack = s at hs
  generalize g.stack = t at hs known
  induction hs with
  | nil => rfl
  | cons hab _ ih =>
      simp only [List.foldr_cons, hab.slots (known _ List.mem_cons_self)]
      rw [ih fun v hv => known v (List.mem_cons_of_mem _ hv)]

/-- Storing values in order keeps the order. -/
theorem forall₂_storeLocals {locals locals' : List FrameValue} {index : Nat} {v v' : FrameValue}
    (hl : List.Forall₂ FrameValue.Below locals locals') (hv : v.Below v') (hk : v' ≠ .top) :
    List.Forall₂ FrameValue.Below (storeLocals locals index v) (storeLocals locals' index v') := by
  simp only [storeLocals, FrameValue.isWide_eq_of_isAssignableFrom hv hk]
  have hcleared : List.Forall₂ FrameValue.Below
      (if 0 < index ∧ (locals.getD (index - 1) .top).isWide then locals.set (index - 1) .top
        else locals)
      (if 0 < index ∧ (locals'.getD (index - 1) .top).isWide then locals'.set (index - 1) .top
        else locals') := by
    cases hn : locals'[index - 1]? with
    | none =>
        have hn' : locals[index - 1]? = none := by
          simp only [List.getElem?_eq_none_iff] at hn ⊢
          exact hl.length_eq ▸ hn
        simpa [List.getD_eq_getElem?_getD, hn, hn', FrameValue.isWide] using hl
    | some b =>
        obtain ⟨a, ha, hab⟩ := getElem?_of_forall₂ hl hn
        simp only [List.getD_eq_getElem?_getD, hn, ha, Option.getD_some]
        by_cases hb : b = .top
        · -- Whether or not the slot is cleared below, nothing was known of it above.
          subst hb
          have hset : locals'.set (index - 1) .top = locals' :=
            List.ext_getElem? fun i => by grind
          split
          · simpa [FrameValue.isWide, hset] using
              forall₂_set hl (index - 1) (FrameValue.below_top .top)
          · simpa [FrameValue.isWide] using hl
        · rw [FrameValue.isWide_eq_of_isAssignableFrom hab hb]
          split
          · exact forall₂_set hl _ (FrameValue.below_top _)
          · exact hl
  split
  · exact forall₂_set (forall₂_set hcleared _ (FrameValue.below_top _)) _ hv
  · exact forall₂_set hcleared _ hv

theorem Paired.append {a b : List FrameValue} (ha : Paired a) (hb : Paired b) :
    Paired (a ++ b) := by
  intro i v hv hw
  by_cases hi : i < a.length
  · rw [List.getElem?_append_left hi] at hv
    have hnext := ha i v hv hw
    rw [List.getElem?_append_left (List.getElem?_eq_some_iff.1 hnext).1]
    exact hnext
  · rw [List.getElem?_append_right (Nat.not_lt.1 hi)] at hv
    rw [List.getElem?_append_right (by omega), Nat.sub_add_comm (Nat.not_lt.1 hi)]
    exact hb _ v hv hw

/-- Values that take one slot each. -/
theorem paired_of_narrow {values : List FrameValue} (h : ∀ v ∈ values, ¬ v.isWide) :
    Paired values :=
  fun _ v hv hw => absurd hw (h v (List.mem_of_getElem? hv))

/-- A local keeps what it holds unless the stored value overlaps it. -/
theorem getElem?_storeLocals (locals : List FrameValue) (index i : Nat) (v : FrameValue) :
    (storeLocals locals index v)[i]? =
      if i < locals.length then
        if i = index then some v
        else if v.isWide ∧ i = index + 1 then some .top
        else if i + 1 = index ∧ (locals.getD i .top).isWide then some .top
        else locals[i]?
      else none := by
  unfold storeLocals
  grind

theorem length_storeLocals (locals : List FrameValue) (index : Nat) (v : FrameValue) :
    (storeLocals locals index v).length = locals.length := by
  unfold storeLocals
  grind

theorem mem_storeLocals {locals : List FrameValue} {index : Nat} {v u : FrameValue}
    (h : u ∈ storeLocals locals index v) : u = v ∨ u = .top ∨ u ∈ locals := by
  obtain ⟨i, hi⟩ := List.mem_iff_getElem?.1 h
  rw [getElem?_storeLocals] at hi
  grind [List.mem_iff_getElem?]

/-- Storing a value that has room leaves no half of a wide local behind. -/
theorem paired_storeLocals {locals : List FrameValue} {index : Nat} {v : FrameValue}
    (hw : Paired locals) (room : lastSlot index v.isWide < locals.length) :
    Paired (storeLocals locals index v) := by
  intro i u hu huw
  have htop : FrameValue.top.isWide = false := rfl
  rw [getElem?_storeLocals] at hu ⊢
  have := hw i u
  simp only [lastSlot] at room
  grind

namespace WellFormed

variable {maxLocals : Nat} {f g : Frame}

/-- Another operand stack with the same locals. -/
theorem withStack {locals stack stack' : List FrameValue}
    (h : WellFormed maxLocals ⟨locals, stack⟩)
    (hs : ∀ v ∈ stack', v ≠ .top ∧ v.IsProper) : WellFormed maxLocals ⟨locals, stack'⟩ :=
  ⟨h.localsLength, h.wide, fun v hv => (hs v hv).1, h.localsProper, fun v hv => (hs v hv).2⟩

theorem stackMember {v : FrameValue} (h : f.WellFormed maxLocals) (hv : v ∈ f.stack) :
    v ≠ .top ∧ v.IsProper := ⟨h.known v hv, h.stackProper v hv⟩

end WellFormed

/-- Stacks of one height merge unless two of their values have nothing in common. -/
theorem mergeStacks_eq_ok {known incoming : List FrameValue}
    (h : ∀ v ∈ List.zipWith FrameValue.merge known incoming, v ≠ .top) :
    mergeStacks known incoming = .ok (List.zipWith FrameValue.merge known incoming) := by
  induction known generalizing incoming with
  | nil => rfl
  | cons a known ih =>
      cases incoming with
      | nil => rfl
      | cons b incoming =>
          simp only [List.zipWith_cons_cons, List.forall_mem_cons] at h
          simp only [mergeStacks, ih h.2, Except.ok_bind, h.1, if_false, List.zipWith_cons_cons]
          rfl

theorem ne_top_of_mergeStacks {known incoming stack : List FrameValue}
    (h : mergeStacks known incoming = .ok stack) : ∀ v ∈ stack, v ≠ .top := by
  induction known generalizing incoming stack with
  | nil =>
      cases h
      simp
  | cons a known ih =>
      cases incoming with
      | nil =>
          cases h
          simp
      | cons b incoming =>
          rw [mergeStacks, Except.bind_eq_ok] at h
          obtain ⟨below, hbelow, h⟩ := h
          split at h
          · cases h
          · rename_i hne
            cases h
            exact List.forall_mem_cons.2 ⟨hne, ih hbelow⟩

/-- What a merge gives, and when. -/
theorem merge_eq_ok {known incoming merged : Frame}
    (locals : known.locals.length = incoming.locals.length) :
    known.merge incoming = .ok merged ↔
      known.stack.length = incoming.stack.length ∧
        merged = ⟨List.zipWith FrameValue.merge known.locals incoming.locals,
          List.zipWith FrameValue.merge known.stack incoming.stack⟩ ∧
        ∀ v ∈ merged.stack, v ≠ .top := by
  simp only [merge, mergeLocals_eq_zipWith locals]
  constructor
  · intro h
    split at h
    · rename_i hl
      obtain ⟨stack, hs, h⟩ := Except.bind_eq_ok.1 h
      cases h
      exact ⟨hl, by rw [mergeStacks_eq_zipWith hs], ne_top_of_mergeStacks hs⟩
    · cases h
  · rintro ⟨hl, rfl, hk⟩
    rw [if_pos hl, mergeStacks_eq_ok hk]
    rfl

/-- Values merge to a value below every value that's above both. -/
theorem forall₂_below_zipWith_merge {a b c : List FrameValue}
    (ha : List.Forall₂ FrameValue.Below a c) (hb : List.Forall₂ FrameValue.Below b c) :
    List.Forall₂ FrameValue.Below (List.zipWith FrameValue.merge a b) c := by
  induction ha generalizing b with
  | nil => simp
  | cons h ha ih =>
      cases hb with
      | cons h' hb => exact .cons (FrameValue.isAssignableFrom_merge h h') (ih hb)

theorem forall₂_below_merge_left {a b : List FrameValue} (hl : a.length = b.length)
    (ha : ∀ v ∈ a, v.IsProper) :
    List.Forall₂ FrameValue.Below a (List.zipWith FrameValue.merge a b) := by
  induction a generalizing b with
  | nil => simp
  | cons u a ih =>
      cases b with
      | nil => cases hl
      | cons v b =>
          simp only [List.forall_mem_cons] at ha
          exact .cons (FrameValue.isAssignableFrom_merge_left ha.1) (ih (by simpa using hl) ha.2)

theorem forall₂_below_merge_right {a b : List FrameValue} (hl : a.length = b.length)
    (hb : ∀ v ∈ b, v.IsProper) :
    List.Forall₂ FrameValue.Below b (List.zipWith FrameValue.merge a b) := by
  induction a generalizing b with
  | nil =>
      cases b with
      | nil => simp
      | cons v b => cases hl
  | cons u a ih =>
      cases b with
      | nil => cases hl
      | cons v b =>
          simp only [List.forall_mem_cons] at hb
          exact .cons (FrameValue.isAssignableFrom_merge_right hb.1) (ih (by simpa using hl) hb.2)

/-- Frames that are both below a third one merge, and to a frame below it. -/
theorem Below.merge {f g h : Frame} (hf : f.Below h) (hg : g.Below h)
    (known : ∀ v ∈ h.stack, v ≠ .top) : ∃ merged, f.merge g = .ok merged ∧ merged.Below h := by
  have hs := forall₂_below_zipWith_merge hf.stack hg.stack
  have locals := hf.locals.length_eq.trans hg.locals.length_eq.symm
  refine ⟨_, (merge_eq_ok locals).2 ⟨?_, rfl, ?_⟩,
    forall₂_below_zipWith_merge hf.locals hg.locals, hs⟩
  · rw [hf.stack.length_eq, hg.stack.length_eq]
  · intro v hv
    obtain ⟨u, hu, hvu⟩ := exists_mem_of_forall₂ hs hv
    exact hvu.ne_top (known u hu)

variable {maxLocals : Nat} {f g merged : Frame}

/-- A merge is above the frame that was known before. -/
theorem below_merge_left (hf : f.WellFormed maxLocals) (hg : g.WellFormed maxLocals)
    (h : f.merge g = .ok merged) : f.Below merged := by
  have locals := hf.localsLength.trans hg.localsLength.symm
  obtain ⟨hl, rfl, -⟩ := (merge_eq_ok locals).1 h
  exact ⟨forall₂_below_merge_left locals hf.localsProper,
    forall₂_below_merge_left hl hf.stackProper⟩

/-- A merge is above the frame that has arrived. -/
theorem below_merge_right (hf : f.WellFormed maxLocals) (hg : g.WellFormed maxLocals)
    (h : f.merge g = .ok merged) : g.Below merged := by
  have locals := hf.localsLength.trans hg.localsLength.symm
  obtain ⟨hl, rfl, -⟩ := (merge_eq_ok locals).1 h
  exact ⟨forall₂_below_merge_right locals hg.localsProper,
    forall₂_below_merge_right hl hg.stackProper⟩

theorem isProper_of_mem_zipWith_merge {a b : List FrameValue} (ha : ∀ v ∈ a, v.IsProper)
    (hb : ∀ v ∈ b, v.IsProper) : ∀ v ∈ List.zipWith FrameValue.merge a b, v.IsProper := by
  intro v hv
  obtain ⟨i, hi⟩ := List.mem_iff_getElem?.1 hv
  obtain ⟨u, w, hu, hw, rfl⟩ := List.getElem?_zipWith_eq_some.1 hi
  exact FrameValue.isProper_merge (ha _ (List.mem_of_getElem? hu)) (hb _ (List.mem_of_getElem? hw))

theorem wellFormed_of_merge (hf : f.WellFormed maxLocals) (hg : g.WellFormed maxLocals)
    (h : f.merge g = .ok merged) : merged.WellFormed maxLocals := by
  obtain ⟨hl, rfl, hk⟩ := (merge_eq_ok (hf.localsLength.trans hg.localsLength.symm)).1 h
  refine ⟨?_, ?_, hk, isProper_of_mem_zipWith_merge hf.localsProper hg.localsProper,
    isProper_of_mem_zipWith_merge hf.stackProper hg.stackProper⟩
  · simp [hf.localsLength, hg.localsLength]
  · intro i v hv hw
    obtain ⟨a, b, ha, hb, rfl⟩ := List.getElem?_zipWith_eq_some.1 hv
    have hne : a.merge b ≠ .top := by
      intro ht
      rw [ht] at hw
      cases hw
    have haw : a.isWide := by
      rw [FrameValue.isWide_eq_of_isAssignableFrom (FrameValue.isAssignableFrom_merge_left
        (hf.localsProper a (List.mem_of_getElem? ha))) hne]
      exact hw
    have hbw : b.isWide := by
      rw [FrameValue.isWide_eq_of_isAssignableFrom (FrameValue.isAssignableFrom_merge_right
        (hg.localsProper b (List.mem_of_getElem? hb))) hne]
      exact hw
    exact List.getElem?_zipWith_eq_some.2 ⟨_, _, hf.wide i a ha haw, hg.wide i b hb hbw, rfl⟩

end Frame

theorem Instruction.given_of_fixedEffect {i : Instruction} {kinds : List ValueKind}
    {given : List FrameValue} (h : i.fixedEffect? = some (kinds, given)) :
    ∀ v ∈ given, v ≠ .top ∧ v.IsProper := by
  have ofKind (kind : ValueKind) := And.intro (FrameValue.ofKind_ne_top kind)
    (FrameValue.isProper_ofKind kind)
  cases i <;> simp only [fixedEffect?] at h
  case const c =>
    cases h
    cases c <;> simp [Method.constantValue, FrameValue.IsProper, ValueType.isReference]
  case binary op kind =>
    split at h
    · cases h
    · cases h
      simpa using ofKind kind.toValueKind
  case checkCast type =>
    split at h
    · cases h
      simp_all [FrameValue.IsProper]
    · cases h
  case instanceOf type =>
    split at h
    · cases h
      simp [FrameValue.IsProper]
    · cases h
  case newArray element =>
    cases h
    simp [FrameValue.IsProper, ValueType.isReference]
  case negate kind =>
    cases h
    simpa using ofKind kind.toValueKind
  case convert source target =>
    cases h
    simpa using ofKind target.toValueKind
  all_goals
    cases h
    try simp [FrameValue.IsProper]

namespace Method

variable {m : Method} {f g g' : Frame} {i : Instruction}

/-- What can be done with a frame can be done with every frame below it, and leads to a frame below
the other's. -/
theorem Rule.mono (h : m.Rule g i g') (hf : f.Below g) (known : ∀ v ∈ g.stack, v ≠ .top) :
    ∃ f', m.Rule f i f' ∧ f'.Below g' := by
  obtain ⟨locals, stack⟩ := f
  obtain ⟨hl, hs⟩ := hf
  cases h with
  | fixed effect operands =>
      obtain ⟨taken, below, rfl, ht, hb⟩ := exists_append_of_forall₂ hs
      have hk := List.forall₂_iff_get.1 operands
      refine ⟨_, .fixed effect (List.forall₂_iff_get.2 ⟨?_, ?_⟩), hl, forall₂_append ?_ hb⟩
      · rw [hk.1, ht.length_eq]
      · intro n h₁ h₂
        exact ((List.forall₂_iff_get.1 ht).2 n h₂ (hk.1 ▸ h₁)).kind (hk.2 n h₁ _)
      · exact Frame.forall₂_below_refl fun v hv => (Instruction.given_of_fixedEffect effect v hv).2
  | @shuffle _ taken given locals' stack' moves =>
      obtain ⟨taken', below, rfl, ht, hb⟩ := exists_append_of_forall₂ hs
      have hR : List.Forall₂ (fun a b : FrameValue => b.Below a ∧ a ≠ .top) taken taken' := by
        refine List.forall₂_iff_get.2 ⟨ht.length_eq.symm, fun n h₁ h₂ => ⟨?_, ?_⟩⟩
        · exact (List.forall₂_iff_get.1 ht).2 n h₂ h₁
        · exact known _ (List.mem_append_left _ (List.get_mem _ _))
      obtain ⟨given', moves', hg⟩ := moves.map
        (fun a b hab => (FrameValue.isWide_eq_of_isAssignableFrom hab.1 hab.2).symm) hR
      exact ⟨_, .shuffle moves', hl, forall₂_append (hg.flip.imp fun _ _ h => h.1) hb⟩
  | load inRange found hasKind =>
      obtain ⟨v, hv, hvb⟩ := getElem?_of_forall₂ hl found
      exact ⟨_, .load inRange hv (hvb.kind hasKind), hl, .cons hvb hs⟩
  | store hasKind inRange =>
      obtain _ | ⟨hv, hs⟩ := hs
      have hne := FrameValue.ne_top_of_kind hasKind
      refine ⟨_, .store (hv.kind hasKind) ?_, Frame.forall₂_storeLocals hl hv hne, hs⟩
      rwa [FrameValue.isWide_eq_of_isAssignableFrom hv hne]
  | increment inRange found =>
      obtain ⟨v, hv, hvb⟩ := getElem?_of_forall₂ hl found
      obtain rfl := FrameValue.eq_of_below_int hvb
      exact ⟨_, .increment inRange hv, hl, hs⟩
  | @invoke kind method taken locals' stack' operands =>
      obtain ⟨taken', below, rfl, ht, hb⟩ := exists_append_of_forall₂ hs
      have hk := List.forall₂_iff_get.1 operands
      refine ⟨_, .invoke (List.forall₂_iff_get.2 ⟨?_, ?_⟩), hl, forall₂_append ?_ hb⟩
      · rw [hk.1, ht.length_eq]
      · intro n h₁ h₂
        exact FrameValue.isAssignableFrom_trans (hk.2 n h₁ (hk.1 ▸ h₁))
          ((List.forall₂_iff_get.1 ht).2 n h₂ (hk.1 ▸ h₁))
      · refine Frame.forall₂_below_refl fun v hv => ?_
        cases hr : method.type.returns <;> simp_all [FrameValue.isProper_ofType]
  | arrayLength array =>
      obtain _ | ⟨hv, hs⟩ := hs
      obtain ⟨element, harray, -⟩ := array.mono hv
      exact ⟨_, .arrayLength harray, hl, .cons rfl hs⟩
  | arrayLoad array =>
      obtain _ | ⟨hi, _ | ⟨hv, hs⟩⟩ := hs
      obtain rfl := FrameValue.eq_of_below_int hi
      obtain ⟨element, harray, he⟩ := array.mono hv
      exact ⟨_, .arrayLoad harray, hl, .cons he hs⟩
  | arrayStore hasKind array =>
      obtain _ | ⟨hu, _ | ⟨hi, _ | ⟨hv, hs⟩⟩⟩ := hs
      obtain rfl := FrameValue.eq_of_below_int hi
      obtain ⟨element, harray, -⟩ := array.mono hv
      exact ⟨_, .arrayStore (hu.kind hasKind) harray, hl, hs⟩
  | leaveNothing returns => exact ⟨_, .leaveNothing returns, hl, hs⟩
  | leave returns fits =>
      obtain _ | ⟨hv, hs⟩ := hs
      exact ⟨_, .leave returns (FrameValue.isAssignableFrom_trans fits hv), hl, hs⟩

/-- Where the values of the operand stack come from. -/
theorem Rule.mem_stack {v : FrameValue} (h : m.Rule f i g) (hv : v ∈ g.stack) :
    v ∈ f.stack ∨ v ≠ .top ∧ (v ∈ f.locals ∨ v.IsProper) := by
  cases h with
  | fixed effect operands =>
      rcases List.mem_append.1 hv with hv | hv
      · exact .inr ((Instruction.given_of_fixedEffect effect v hv).imp_right .inr)
      · exact .inl (List.mem_append_right _ hv)
  | shuffle moves =>
      rcases List.mem_append.1 hv with hv | hv
      · exact .inl (List.mem_append_left _ (moves.mem_taken hv))
      · exact .inl (List.mem_append_right _ hv)
  | load inRange found hasKind =>
      rcases List.mem_cons.1 hv with rfl | hv
      · exact .inr ⟨FrameValue.ne_top_of_kind hasKind, .inl (List.mem_of_getElem? found)⟩
      · exact .inl hv
  | store hasKind inRange => exact .inl (List.mem_cons_of_mem _ hv)
  | increment inRange found => exact .inl hv
  | @invoke kind method taken locals stack operands =>
      rcases List.mem_append.1 hv with hv | hv
      · cases hr : method.type.returns <;> simp [hr] at hv
        exact .inr (hv ▸ ⟨FrameValue.ofType_ne_top _, .inr (FrameValue.isProper_ofType _)⟩)
      · exact .inl (List.mem_append_right _ hv)
  | arrayLength array =>
      rcases List.mem_cons.1 hv with rfl | hv
      · exact .inr (by simp [FrameValue.IsProper])
      · exact .inl (List.mem_cons_of_mem _ hv)
  | arrayLoad array =>
      rcases List.mem_cons.1 hv with rfl | hv
      · exact .inr ⟨array.element_ne_top, .inr array.element_isProper⟩
      · exact .inl (List.mem_cons_of_mem _ (List.mem_cons_of_mem _ hv))
  | arrayStore hasKind array =>
      exact .inl (List.mem_cons_of_mem _ (List.mem_cons_of_mem _ (List.mem_cons_of_mem _ hv)))
  | leaveNothing returns => exact .inl hv
  | leave returns fits => exact .inl (List.mem_cons_of_mem _ hv)

/-- Where the locals come from. -/
theorem Rule.locals (h : m.Rule f i g) : g.locals = f.locals ∨
    ∃ kind index v, i = .store kind index ∧ v ∈ f.stack ∧
      lastSlot index.toNat v.isWide < m.maxLocals.toNat ∧
      g.locals = Frame.storeLocals f.locals index.toNat v := by
  cases h with
  | @store kind index v locals stack hasKind inRange =>
      exact .inr ⟨kind, index, v, rfl, List.mem_cons_self, inRange, rfl⟩
  | _ => exact .inl rfl

theorem Rule.known (h : m.Rule f i g) (hf : ∀ v ∈ f.stack, v ≠ .top) : ∀ v ∈ g.stack, v ≠ .top :=
  fun v hv => (h.mem_stack hv).elim (hf v) And.left

/-- The rules keep frames well formed. -/
theorem Rule.wellFormed (h : m.Rule f i g) (hf : f.WellFormed m.maxLocals.toNat) :
    g.WellFormed m.maxLocals.toNat := by
  have hstack : ∀ v ∈ g.stack, v.IsProper := by
    intro v hv
    rcases h.mem_stack hv with hv | ⟨-, hv | hv⟩
    · exact hf.stackProper v hv
    · exact hf.localsProper v hv
    · exact hv
  rcases h.locals with hl | ⟨kind, index, v, -, hv, hroom, hl⟩
  · exact ⟨hl ▸ hf.localsLength, hl ▸ hf.wide, h.known hf.known, hl ▸ hf.localsProper, hstack⟩
  · refine ⟨?_, ?_, h.known hf.known, ?_, hstack⟩
    · rw [hl, Frame.length_storeLocals, hf.localsLength]
    · rw [hl]
      exact Frame.paired_storeLocals hf.wide (hf.localsLength ▸ hroom)
    · intro u hu
      rw [hl] at hu
      rcases Frame.mem_storeLocals hu with rfl | rfl | hu
      · exact hf.stackProper _ hv
      · simp [FrameValue.IsProper]
      · exact hf.localsProper u hu

/-- An instruction after which execution doesn't go on to the next one only takes operands. -/
theorem Rule.suffix_of_not_fallsThrough (h : m.Rule f i g) (hi : i.fallsThrough = false) :
    g.stack <:+ f.stack := by
  cases h with
  | @fixed _ kinds given taken locals stack effect operands =>
      cases i <;> first
        | cases hi
          done
        | cases effect <;> exact List.suffix_append taken stack
  | shuffle moves => cases moves <;> cases hi
  | leaveNothing returns => exact List.suffix_rfl
  | leave returns fits => exact List.suffix_cons _ _
  | _ => cases hi

end Method

end Resumable
