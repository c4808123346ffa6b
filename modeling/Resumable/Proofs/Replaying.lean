import Resumable.Proofs.Unwinding

/-!
# Going through a chain of methods again

When a capability is being loaded, calling the method that was entered first gets its frame back and
repeats its call, and so do the methods that are called that way.  The last one goes on after the
place where it suspended itself.  By then all states have been taken, the last one that was pushed
first.
-/

namespace Resumable

open CallState Snapshot Machine

/-- True if both activations are of one method and at one place, with the same operand stack, and
their locals are the same as far as something is known of them at the position `q`. -/
structure Activation.Alike (q : Nat) (a b : Activation) : Prop where
  owner : b.owner = a.owner
  method : b.method = a.method
  position : b.position = a.position
  stack : b.frame.stack = a.frame.stack
  length : b.frame.locals.length = a.frame.locals.length
  locals : ∀ frames g, a.method.analyze a.owner = .ok frames → frames.at? q = some g →
    ∀ (k : Nat) (type : FrameValue), g.locals[k]? = some type → type ≠ .top →
      b.frame.locals[k]? = a.frame.locals[k]?

namespace Activation.Alike

variable {a b : Activation} {q : Nat} {known : Nat → Prop} {w : World} {frames : Frames} {g : Frame}

theorem renamed (h : a.Alike q b) (ha : a.Renamed (.diagonal known) q a) :
    b.Renamed (.diagonal known) q b := by
  refine ⟨rfl, rfl, rfl, fun frames g hframes hg => ?_⟩
  rw [h.owner, h.method] at hframes
  obtain ⟨hlocals, hstack⟩ := ha.frame frames g hframes hg
  refine ⟨fun k type htype htop => ?_, h.stack ▸ hstack⟩
  rw [h.locals frames g hframes hg k type htype htop]
  exact hlocals k type htype htop

theorem conforms (h : a.Alike q b) (hframes : a.method.analyze a.owner = .ok frames)
    (hg : frames.at? q = some g) {stack : List FrameValue}
    (hf : a.frame.Conforms known w ⟨g.locals, stack⟩) :
    b.frame.Conforms known w ⟨g.locals, stack⟩ := by
  refine ⟨List.forall₂_iff_get.2 ⟨h.length.trans hf.locals.length_eq, fun k h₁ h₂ htop => ?_⟩,
    h.stack ▸ hf.stack⟩
  have h₁' : k < a.frame.locals.length := h.length ▸ h₁
  have hsame := h.locals frames g hframes hg k _ (List.getElem?_eq_getElem h₂) htop
  rw [List.getElem?_eq_getElem h₁, List.getElem?_eq_getElem h₁'] at hsame
  have hfits := (List.forall₂_iff_get.1 hf.locals).2 k h₁' h₂ htop
  simp only [List.get_eq_getElem] at hfits ⊢
  rwa [Option.some.inj hsame]

end Activation.Alike

namespace CallState

variable {t t' : CallState} {known : Nat → Prop}

/-- The invariant doesn't depend on locals of which the analysis knows nothing. -/
theorem Tame.alike (h : t.Tame known) (hworld : t'.world = t.world)
    (hcurrent : t.current.Alike t.current.position t'.current)
    (hcallers : List.Forall₂ (fun a b => a.Alike (a.position + 1) b) t.callers t'.callers) :
    t'.Tame known := by
  have hclosed : t'.Closed known := by
    refine ⟨hworld ▸ h.closed.world, ?_, List.forall₂_same.2 fun b hb => ?_⟩
    · rw [hcurrent.position]
      exact hcurrent.renamed h.closed.current
    · obtain ⟨a, ha, halike⟩ := exists_mem_of_forall₂ hcallers.flip hb
      rw [halike.position]
      exact halike.renamed (List.forall₂_same.1 h.closed.callers a ha)
  refine hclosed.tame (K := t.world.OrFresh known) (hworld ▸ h.tidy.elements) ?_ ?_
  · obtain ⟨frames, g, hframes, hg, hf⟩ := h.typed.runs
    refine ⟨frames, g, ?_, ?_, ?_⟩
    · rw [hcurrent.owner, hcurrent.method, hframes]
    · rw [hcurrent.position, hg]
    · rw [hworld]
      exact hcurrent.conforms hframes hg hf
  · rw [hcurrent.method, hworld]
    have hchain := h.typed.chain
    generalize t.current.method.type.returns = returns at hchain
    generalize t.callers = callers at hchain hcallers
    generalize t'.callers = callers' at hcallers
    induction hcallers generalizing returns with
    | nil => trivial
    | @cons a b callers callers' halike _ ih =>
        refine ⟨?_, halike.method ▸ ih _ hchain.2⟩
        obtain ⟨frames, g, rest, hframes, hg, hbelow, hf⟩ := hchain.1.exact
        refine ⟨frames, g, g.locals, rest, ?_, ?_, hbelow, halike.conforms hframes hg hf⟩
        · rw [halike.owner, halike.method, hframes]
        · rw [halike.position, hg]

end CallState

/-- True if the resumable method, entered with the arguments, finds the capability with the given
number in its slot, and has room for slots of its own. -/
structure Method.Accepts (d : Method) (n : Nat) (w : World) (args : List Value) (c : Value) :
    Prop where
  room : (ValueFrame.entry args 0).locals.length + 4 ≤ d.maxLocals.toNat
  stands : w.Stands n c
  slot : (ValueFrame.entry args d.maxLocals.toNat).locals[d.capabilitySlot]? = some c

/-- What's known of a local after an invocation was known of it before, so locals that agree as far
as they're known before an invocation do so after it. -/
theorem Method.agree_after_invoke {d : Method} {owner : String} {frames : Frames} {p : Nat}
    {g : Frame} {kind : InvokeKind} {method : MethodRef} {own locals : List Value}
    (h : d.analyze owner = .ok frames) (hg : frames.at? p = some g)
    (hi : d.body.get? p = some (.invoke kind method))
    (hagree : ∀ (k : Nat) (type : FrameValue), g.locals[k]? = some type → type ≠ .top →
      own[k]? = locals[k]?) (frames' : Frames) (g' : Frame) (h' : d.analyze owner = .ok frames')
    (hg' : frames'.at? (p + 1) = some g') (k : Nat) (type : FrameValue)
    (htype : g'.locals[k]? = some type) (htop : type ≠ .top) : own[k]? = locals[k]? := by
  obtain rfl : frames = frames' := Except.ok.inj (h.symm.trans h')
  obtain ⟨i, g₁, hi', htransfer, hadmits⟩ := (analyzed_of_analyze h).stable p g hg
  obtain rfl := Option.some.inj (hi.symm.trans hi')
  obtain ⟨g₂, hg₂, hbelow⟩ := hadmits (p + 1) (.next hi rfl)
  obtain rfl := Option.some.inj (hg'.symm.trans hg₂)
  have hlocals := hbelow.locals
  rw [(rule_of_transfer htransfer).locals_eq rfl] at hlocals
  obtain ⟨type', htype', hbelow'⟩ := getElem?_of_forall₂ hlocals htype
  exact hagree k type' htype' (hbelow'.ne_top htop)

namespace World

variable {w u v : World} {n : Nat}

theorem cell_popped {mode : Int32} {state : Nat} {rest : List Nat}
    (h : w.cell n = ⟨mode, state :: rest⟩) :
    (w.popped n).cell n = ⟨if rest.isEmpty then Capability.normal else mode, rest⟩ := by
  have hstates : (w.cell n).states = state :: rest := by rw [h]
  rw [popped, cell_modifyCell_self (lt_size_of_states hstates), h]
  rfl

end World

namespace Activation

variable {m m₀ : Machine} {n depth state : Nat} {known : Nat → Prop} {w : World}
  {owner : String} {callee : Method} {a a₀ : Activation}

/-- A call that's repeated enters the method again. -/
theorem step_of_reenters (hm : m.Equipped) {cells : Nat → Prop} {kind : InvokeKind}
    {method : MethodRef} {args : List Value} {callers : List Activation}
    (hreenters : m.Reenters cells w (callers.length + 1) kind method args owner callee)
    (hargs : args.length = (argumentTypes method kind).length) {p : Nat}
    (hi : a.method.body.get? p = some (.invoke kind method)) (locals stack : List Value)
    (executed : Nat) :
    m.step ⟨w, executed, spot a p ⟨locals, args.reverse ++ stack⟩, callers⟩ =
        .running ⟨w, executed + 1, ⟨owner, callee, 0, .entry args callee.maxLocals.toNat⟩,
          spot a p ⟨locals, stack⟩ :: callers⟩ ∧
      invocation? ⟨w, executed, spot a p ⟨locals, args.reverse ++ stack⟩, callers⟩ =
        some (kind, method, args) := by
  have hexecute : ValueFrame.execute w ⟨locals, args.reverse ++ stack⟩ (.invoke kind method) =
      .ok (.call kind method args, ⟨locals, stack⟩, w) := by
    have := @ValueFrame.execute_invoke w locals args.reverse stack kind method
      (by rw [List.length_reverse, hargs])
    rwa [List.reverse_reverse] at this
  constructor
  · rw [step_eq_execute hm.unlimited (i := .invoke kind method) hi]
    simp only [step.execute, spot, hexecute, follow, hreenters.invoke, hreenters.owner]
  · simp only [invocation?, spot, hi, Option.bind_some, hexecute]

/-- A call of a method that may suspend takes no state. -/
theorem pop?_eq_none_of_isSave {s : CallState} {kind : InvokeKind} {method : MethodRef}
    (hi : s.current.method.body.get? s.current.position = some (.invoke kind method))
    (hsave : (Instruction.invoke kind method).isSave) : s.pop? n = none := by
  refine pop?_eq_none fun kind' hi' => ?_
  obtain ⟨-, rfl⟩ : kind = kind' ∧ method = Capability.popState := by
    simpa using Option.some.inj (hi.symm.trans hi')
  exact absurd hsave (by cases kind <;> decide)

/-- True if the next instruction is a call of a method that may suspend. -/
def Calls (m₀ : Machine) (a : Activation) : Prop :=
  ∃ d frames point, a.At m₀ d frames point ∧ point.kind = .save

theorem Parks.replays (hm : m.Equipped) (h : a.Parks m m₀ n known w depth owner callee state a₀)
    {args : List Value} {c : Value} (haccepts : a.method.Accepts n w args c) {rest : List Nat}
    (hcell : w.cell n = ⟨Capability.loading, state :: rest⟩) (hrest : rest ≠ [])
    (callers : List Activation) (hdepth : depth = callers.length + 1) (executed : Nat) :
    ∃ trail executed' a' a₀' args', m.Advances
        ⟨w, executed, ⟨a.owner, a.method, 0, .entry args a.method.maxLocals.toNat⟩, callers⟩ trail
        ⟨w.popped n, executed', ⟨owner, callee, 0, .entry args' callee.maxLocals.toNat⟩,
          a' :: callers⟩ ∧
      (∀ u ∈ trail, u.current.Added ∨ u.current.Calls m₀) ∧ m.hostCalls trail = [] ∧
      (∀ u ∈ trail, (u.world.cell n).mode = Capability.loading) ∧
      pops n trail = [⟨state, a.owner, a.method, callers.length⟩] ∧
      a'.SameMethod a ∧ a'.position = a.position ∧
      a'.Blocked m (· = n) known (w.popped n) depth owner callee a₀' ∧
      a₀.Alike (a₀.position + 1) a₀' ∧
      (callee.access.isInstrumented → ∃ c', callee.Accepts n (w.popped n) args' c') := by
  obtain ⟨hrests, hsave, hcall, hlength, hreenters⟩ := h
  rename_i frames point kind method again
  obtain ⟨howner, hat, hown, hhere, s, l, hstate, hrecords⟩ := hrests
  subst hdepth
  have hresumes := hat.made.resumes
  have hresumes' := howner ▸ hresumes
  obtain ⟨own, before, after, executed₁, htakes, hown', hsame⟩ := hresumes.takes hm haccepts.room
    haccepts.stands haccepts.slot (by rw [hcell]) (by rw [hcell]) hat.mem hstate hrecords hown
    callers executed
  obtain ⟨proceed, hsite⟩ := Method.exists_site hat.mem
  rw [hhere] at hsite
  have honly (point' : ContinuationPoint) (proceed' : Label)
      (h : a₀.method.site? frames a₀.position = some (point', proceed')) : point' = point :=
    (congrArg Prod.fst (Option.some.inj (h.symm.trans hsite)))
  have hinvoke : a.method.body.get? (a₀.method.newPosition frames a₀.position) =
      some (.invoke kind method) := by
    rw [hresumes.body]
    refine Method.get?_newPosition hcall fun point' proceed' h hsuspend => ?_
    rw [honly point' proceed' h, hsave] at hsuspend
    cases hsuspend
  have hposition : a₀.method.resumption frames point = a₀.method.newPosition frames a₀.position := by
    simp only [Method.resumption, hsave, hhere]
  have hadvances := htakes.advances
  rw [hposition] at hadvances
  have hpopped : (w.popped n).cell n = ⟨Capability.loading, rest⟩ := by
    simp [World.cell_popped hcell, hrest]
  have hproceeds : w.Proceeds (w.popped n) := (World.spares_popped known w n).proceeds
  have hreenters' := hreenters.proceeds hproceeds
  -- The call is repeated.
  let calling : CallState := ⟨w.popped n, executed₁, spot a
    (a₀.method.newPosition frames a₀.position)
    ⟨own ++ [c, s, l, .object state], again.reverse ++ a₀.frame.stack⟩, callers⟩
  obtain ⟨hnext, hinvocation⟩ := step_of_reenters (a := a) hm hreenters' hlength hinvoke
    (own ++ [c, s, l, .object state]) a₀.frame.stack executed₁
  have hcalls : calling.current.Calls m₀ :=
    ⟨a₀.method, frames, point, ⟨⟨hat.made.found, hresumes⟩, hat.mem, by rw [hhere]; rfl⟩, hsave⟩
  refine ⟨before ++ after ++ [calling], _, _, ⟨a₀.owner, a₀.method, a₀.position,
    ⟨own, a₀.frame.stack⟩⟩, _, hadvances.trans (.one hnext), fun u hu => ?code, ?hostCalls,
    fun u hu => ?loading, ?takes, ⟨rfl, rfl⟩, ?position, ?blocked, ?alike, ?accepts⟩
  case code =>
    rcases List.mem_append.1 hu with hu | hu
    · exact .inl (htakes.added u hu)
    · exact .inr (List.mem_singleton.1 hu ▸ hcalls)
  case hostCalls =>
    rw [hostCalls_append, hostCalls_of_added htakes.added, hostCalls_cons,
      hostCall?_of_enters (s := calling) hinvocation (hreenters.invoke _)]
    rfl
  case loading =>
    rcases List.mem_append.1 hu with hu | hu
    · rcases List.mem_append.1 hu with hu | hu
      · rw [World.cell_congr (htakes.unchanged u hu) n, hcell]
      · rw [World.cell_congr (htakes.changed u hu) n, hpopped]
    · rw [List.mem_singleton.1 hu, hpopped]
  case takes =>
    obtain ⟨-, -, i, hi, hkind⟩ := Method.of_mem_points hat.mem
    rw [hhere, hcall] at hi
    obtain rfl := Option.some.inj hi
    rw [hsave] at hkind
    have hretains : calling.pop? n = none := pop?_eq_none_of_isSave hinvoke hkind
    rw [pops_append, pops_append, htakes.takes, htakes.retains]
    simp [pops, hretains]
  case position => exact (hat.position.trans (congrArg _ hhere)).symm
  case blocked =>
    refine .resumable ⟨howner, hresumes', rfl, hown', n, rfl, haccepts.stands.proceeds hproceeds⟩
      rfl hcall (fun _ => by rw [hsite]; rfl) fun point' proceed' h => ?_
    obtain rfl := honly point' proceed' h
    refine ⟨hsave, again, hlength, ?_, hreenters'⟩
    have hrecords' := (ContinuationPoint.restored_of_save hsave ▸ hrecords).congr
      (hown'.trans hown.symm) hsame
    exact hrecords'.spares (World.spares_popped known w n)
  case alike =>
    obtain ⟨hframe, -⟩ := Method.of_mem_points hat.mem
    rw [hhere] at hframe
    exact ⟨rfl, rfl, rfl, rfl, hown'.trans hown.symm,
      Method.agree_after_invoke hresumes'.analyze hframe hcall hsame⟩
  case accepts =>
    intro hmarked
    obtain ⟨_, c', heq, hc', hslot⟩ := hreenters'.capability hmarked
    rw [show _ = n from heq] at hc'
    exact ⟨c', hreenters'.room hmarked, hc', hslot⟩

end Activation

namespace CallState

variable {m m₀ : Machine} {n : Nat} {known : Nat → Prop} {w : World} {owner : String}
  {callee : Method} {callers callers₀ : List Activation} {states inner : List Nat}

/-- If states are being loaded then calling the outermost method leads to the call of the innermost
one, by calls that are repeated.  On the way the outer methods take their states. -/
theorem Parked.replays (hm : m.Equipped)
    (h : Parked m m₀ n known w owner callee callers callers₀ states)
    (hcallee : callee.access.isInstrumented) {root : String × Method}
    (hroot : (callers.map fun a => (a.owner, a.method)).getLastD (owner, callee) = root)
    {args : List Value} {c : Value} (haccepts : root.2.Accepts n w args c)
    (hcell : w.cell n = ⟨Capability.loading, states.reverse ++ inner⟩) (hinner : inner ≠ [])
    (executed : Nat) :
    ∃ trail u executed' callers' callers₀' args' c', m.Advances
        ⟨w, executed, ⟨root.1, root.2, 0, .entry args root.2.maxLocals.toNat⟩, []⟩ trail
        ⟨u, executed', ⟨owner, callee, 0, .entry args' callee.maxLocals.toNat⟩, callers'⟩ ∧
      (∀ s ∈ trail, s.current.Added ∨ s.current.Calls m₀) ∧ m.hostCalls trail = [] ∧
      (∀ s ∈ trail, (s.world.cell n).mode = Capability.loading) ∧
      pops n trail = (shifts callers states).reverse ∧
      World.GrowsBut n w u ∧ u.cell n = ⟨Capability.loading, inner⟩ ∧ callee.Accepts n u args' c' ∧
      Stacked m (· = n) known u owner callee callers' callers₀' ∧
      List.Forall₂ (fun a b => b.SameMethod a ∧ b.position = a.position) callers callers' ∧
      List.Forall₂ (fun a b => a.Alike (a.position + 1) b) callers₀ callers₀' := by
  induction h generalizing inner with
  | nil owner callee =>
      subst hroot
      exact ⟨[], w, executed, [], [], args, c, .refl _, by simp, rfl, by simp, rfl, .refl n w,
        hcell, haccepts, .nil _ _, .nil, .nil⟩
  | @cons owner callee a a₀ callers callers₀ state states parks rest ih =>
      rw [List.map_cons, List.getLastD_cons] at hroot
      rw [List.reverse_cons, List.append_assoc] at hcell
      obtain ⟨trail₁, u₁, executed₁, callers', callers₀', args₁, c₁, hadvances₁, hcode₁, hcalls₁, hmode₁,
        hpops₁, hsame₁, hcell₁, haccepts₁, hstacked, hspots, halike⟩ :=
        ih parks.marked hroot hcell (by simp)
      obtain ⟨trail₂, executed₂, a', a₀', args₂, hadvances₂, hcode₂, hcalls₂, hmode₂, hpops₂, hmethod,
        hposition, hblocked, halike₂, haccepts₂⟩ :=
        (parks.spares (hsame₁.objects.spares known)).replays hm haccepts₁ hcell₁ hinner callers'
          (by rw [hspots.length_eq]) executed₁
      have hcell₂ : (u₁.popped n).cell n = ⟨Capability.loading, inner⟩ := by
        simp [World.cell_popped hcell₁, hinner]
      have hsame₂ : World.GrowsBut n u₁ (u₁.popped n) := .modifyCell u₁ n _
      obtain ⟨c₂, haccepts₂⟩ := haccepts₂ hcallee
      refine ⟨trail₁ ++ trail₂, _, executed₂, a' :: callers', a₀' :: callers₀', args₂, c₂,
        hadvances₁.trans hadvances₂, fun s hs => ?_, ?_, fun s hs => ?_, ?_, hsame₁.trans hsame₂,
        hcell₂, haccepts₂, .cons ?_ ?_, .cons ⟨hmethod, hposition⟩ hspots, .cons halike₂ halike⟩
      · exact (List.mem_append.1 hs).elim (hcode₁ s) (hcode₂ s)
      · rw [hostCalls_append, hcalls₁, hcalls₂]
        rfl
      · exact (List.mem_append.1 hs).elim (hmode₁ s) (hmode₂ s)
      · rw [pops_append, hpops₁, hpops₂, ← hspots.length_eq]
        simp [shifts, hspots.length_eq]
      · rw [← hspots.length_eq]
        exact hblocked
      · rw [hmethod.owner, hmethod.method]
        exact hstacked.spares (hsame₂.objects.spares known)

/-- The state in which a call with the original methods goes on when it doesn't suspend itself where
it might. -/
def awake (t : CallState) : CallState :=
  let a := t.current
  { t with
    executed := t.executed + 1
    current := spot a (a.position + 1) ⟨a.frame.locals, a.frame.stack.tail⟩ }

theorem Tame.awake {t : CallState} (h : t.Tame known)
    (hi : t.current.method.body.get? t.current.position =
      some (.invoke .virtual Capability.suspend)) : t.awake.Tame known := by
  obtain ⟨frames, g, i, g', hp⟩ := h.typed.runs.poised h.typed.world
  obtain rfl := Option.some.inj (hi.symm.trans hp.get?)
  obtain ⟨type, -, rfl⟩ := Method.rule_isSuspend rfl hp.rule
  obtain ⟨g₂, hg₂, hbelow⟩ := hp.admits _ (.next hp.get? rfl)
  have hwf := (Method.analyzed_of_analyze hp.analyze).wellFormed _ g₂ hg₂
  have hstack := hp.conforms.stack
  have hclosed := h.closed.current.frame frames _ hp.analyze hp.frame
  have hrenamed : ValueFrame.Renamed (.diagonal known) g'.locals
      ⟨t.current.frame.locals, t.current.frame.stack.tail⟩
      ⟨t.current.frame.locals, t.current.frame.stack.tail⟩ :=
    ⟨hclosed.locals, List.forall₂_same.2 fun v hv =>
      List.forall₂_same.1 hclosed.stack v (List.mem_of_mem_tail hv)⟩
  refine Closed.tame (K := t.world.OrFresh known) ⟨h.closed.world, ?_, h.closed.callers⟩
    h.tidy.elements ⟨frames, g₂, hp.analyze, hg₂, ?_⟩ h.typed.chain
  · exact hp.renamed h.closed.current (.next hp.get? rfl) hrenamed _
  · have hconforms : ValueFrame.Conforms (t.world.OrFresh known) t.world
        ⟨t.current.frame.locals, t.current.frame.stack.tail⟩ g' := by
      refine ⟨hp.conforms.locals, ?_⟩
      rw [← List.drop_one]
      exact List.forall₂_drop 1 hstack
    exact hconforms.mono hbelow hwf

/-- True if a call that starts in the state `s₀` takes back the states that were pushed when `s`
suspended itself, the last one first, and then goes on after that.  Until then only code that's been
added runs, or calls are repeated. -/
structure Reawakens (m m₀ : Machine) (n : Nat) (known : Nat → Prop) (s t : CallState)
    (states : List Nat) (s₀ : CallState) (early late : List CallState) (s' t' : CallState) :
    Prop where
  advances : m.Advances s₀ (early ++ late) s'
  code : ∀ u ∈ early ++ late, u.current.Added ∨ u.current.Calls m₀
  hostCalls : m.hostCalls (early ++ late) = []
  loading : ∀ u ∈ early, (u.world.cell n).mode = Capability.loading
  normal : ∀ u ∈ late, u.world.cell n = .initial
  restored : s'.world.cell n = .initial
  takes : pops n early = (shifts s.active states).reverse
  retains : pops n late = []
  grows : World.GrowsBut n s₀.world s'.world
  mirrors : s'.Mirrors m (· = n) known t'
  running : t.awake.current.Alike (t.current.position + 1) t'.current
  waiting : List.Forall₂ (fun a b => a.Alike (a.position + 1) b) t.callers t'.callers
  current : s'.current.SameMethod s.current
  callers : List.Forall₂ (fun a b => b.SameMethod a ∧ b.position = a.position) s.callers s'.callers

/-- A call that has suspended itself goes on after that, if states are being loaded. -/
theorem Asleep.replays (hm : m.Equipped) {s t : CallState}
    (h : s.Asleep m m₀ n known w t states) {root : String × Method}
    (hroot : (s.callers.map fun a => (a.owner, a.method)).getLastD
      (s.current.owner, s.current.method) = root)
    {args : List Value} {c : Value} (haccepts : root.2.Accepts n w args c)
    (hcell : w.cell n = ⟨Capability.loading, states.reverse⟩) (executed : Nat) :
    ∃ early late s' t', s.Reawakens m m₀ n known t states
      ⟨w, executed, ⟨root.1, root.2, 0, .entry args root.2.maxLocals.toNat⟩, []⟩ early late s' t' := by
  obtain ⟨hrests, hsuspend, hparked⟩ := h
  rename_i frames point state states
  rw [List.reverse_cons] at hcell
  have hresumes := hrests.at_.made.resumes
  have hresumes' := hrests.owner ▸ hresumes
  obtain ⟨trail, u, executed₁, callers', callers₀', args₁, c₁, hadvances₁, hcode₁, hcalls₁, hmode₁,
    hpops₁, hsame₁, hcell₁, haccepts₁, hstacked, hspots, halike⟩ :=
    hparked.replays hm hresumes.marked hroot haccepts hcell (by simp) executed
  obtain ⟨stackArray, localsArray, hstate, hrecords⟩ :=
    (hrests.spares (hsame₁.objects.spares known)).remembers
  obtain ⟨own, before, after, executed₂, htakes, hown, hlocals⟩ := hresumes.takes hm haccepts₁.room
    haccepts₁.stands haccepts₁.slot (by rw [hcell₁]) (by rw [hcell₁]) hrests.at_.mem hstate hrecords
    hrests.length callers' executed₁
  have hcell₂ : (u.popped n).cell n = .initial := World.cell_popped hcell₁
  have hsame₂ : World.GrowsBut n u (u.popped n) := .modifyCell u n _
  refine ⟨trail ++ before, after,
    ⟨u.popped n, executed₂, ⟨s.current.owner, s.current.method,
      t.current.method.resumption frames point, ValueFrame.extend ⟨own, t.current.frame.stack.tail⟩
        [c₁, stackArray, localsArray, .object state]⟩, callers'⟩,
    ⟨u.popped n, executed₂, ⟨t.current.owner, t.current.method,
      t.current.position + 1, ⟨own, t.current.frame.stack.tail⟩⟩, callers₀'⟩,
    ⟨?advances, fun v hv => ?code, ?hostCalls, fun v hv => ?loading, fun v hv => ?normal, hcell₂,
      ?takes, htakes.retains, hsame₁.trans hsame₂, ?mirrors, ?running, halike, ⟨rfl, rfl⟩, hspots⟩⟩
  case advances =>
    rw [List.append_assoc]
    exact hadvances₁.trans htakes.advances
  case code =>
    rw [List.append_assoc] at hv
    exact (List.mem_append.1 hv).elim (hcode₁ v) fun hv => .inl (htakes.added v hv)
  case hostCalls =>
    rw [List.append_assoc, hostCalls_append, hcalls₁, hostCalls_of_added htakes.added]
    rfl
  case loading =>
    rcases List.mem_append.1 hv with hv | hv
    · exact hmode₁ v hv
    · rw [World.cell_congr (htakes.unchanged v hv) n, hcell₁]
  case normal => exact (World.cell_congr (htakes.changed v hv) n).trans hcell₂
  case takes =>
    rw [pops_append, hpops₁, htakes.takes, ← hspots.length_eq]
    simp [shifts, active, hspots.length_eq]
  case mirrors =>
    refine ⟨rfl, .resumable ⟨hrests.owner, hresumes', rfl, hown, n, rfl,
      haccepts₁.stands.proceeds hsame₂.objects.proceeds⟩ ?_,
      hstacked.spares (hsame₂.objects.spares known), ?_⟩
    · simp only [Method.resumption, hsuspend, hrests.here]
    · rintro _ rfl
      rw [hcell₂]
      rfl
  case running =>
    obtain ⟨hframe, -, i, hi, hkind⟩ := Method.of_mem_points hrests.at_.mem
    rw [hsuspend] at hkind
    obtain rfl := Body.eq_invoke_of_isSuspend hkind
    rw [hrests.here] at hframe hi
    exact ⟨rfl, rfl, rfl, rfl, hown.trans hrests.length.symm,
      Method.agree_after_invoke hresumes'.analyze hframe hi hlocals⟩

end CallState

end Resumable
