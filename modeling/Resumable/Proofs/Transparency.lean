import Resumable.Proofs.Descriptors
import Resumable.Proofs.StackDepth
import Resumable.Proofs.Starts

/-!
# Calls that suspend nothing

As long as no method of a capability is called and all capabilities are in the normal mode, nobody
can tell whether methods are resumable.  A call ends with the same value or error, asks the same of
the host, and leaves the same objects as the call with the original methods, but for the arrays that
nobody knows of.
-/

namespace Resumable

variable {m m₀ : Machine} {held cells known known' : Nat → Prop} {r r' : CallState} {w : World}
  {owner name descriptor : String} {args : List Value}

/-- True if the known objects that wrap capabilities wrap ones with the given numbers. -/
def World.Wraps (known cells : Nat → Prop) (w : World) : Prop :=
  ∀ a n, known a → w.object? a = some (.capability n) → cells n

/-- No new capabilities get known. -/
theorem Machine.wraps_step (tame : r.Tame known) (hnative : m.CallsDiscreetly held r)
    (next : m.step r = .running r')
    (hspares : World.Spares known known' r.world r'.world) (h : r.world.Wraps known cells) :
    r'.world.Wraps known' cells := by
  intro a n ha ho
  rcases hspares.fresh a ha with hknown | hnew
  · obtain ⟨o, ho', -⟩ := tame.tidy.closed a hknown
    obtain ⟨o'', ho'', hbecomes⟩ := hspares.proceeds a o ho'
    obtain rfl := Option.some.inj (ho.symm.trans ho'')
    cases hbecomes
    exact h a n hknown ho'
  · rcases Machine.running_cases next with
      hchanges | ⟨kind, method, args, native, result, hcall, hn, hanswer⟩
    · exact absurd ho (hchanges.wraps_none hnew n)
    · have := (hnative kind method args native hcall hn).1.wraps a n hnew
      rw [hanswer] at this
      exact absurd ho this

namespace CallState.Ordinary

/-- A capability that's handed over is a known one. -/
theorem narrow (h : r.Ordinary m fun _ => True) (tame : r.Tame known)
    (hw : r.world.Wraps known cells) : r.Ordinary m cells := by
  refine ⟨h.apart, fun kind method args a hcall hentered heligible => ?_, h.keeps⟩
  obtain ⟨n, c, -, hc, hargument⟩ := h.handsOver kind method args a hcall hentered heligible
  have hknown := Machine.known_of_invocation? tame.typed tame.closed hcall c
    (Machine.mem_of_capabilityArgument? hargument)
  obtain ⟨b, rfl, ho⟩ := id hc
  exact ⟨n, _, hw b n hknown ho, hc, hargument⟩

end CallState.Ordinary

namespace Machine.Instruments

/-- Only known capabilities are ever handed over. -/
theorem ordinary (hm : m.Instruments m₀ held) {trail : List CallState} {c : Completion}
    (completes : m₀.Completes (.running r) trail c) (tame : r.Tame known)
    (holds : ∀ a, held a → known a) (hw : r.world.Wraps known cells)
    (h : ∀ t ∈ trail, t.Ordinary m₀ fun _ => True) : ∀ t ∈ trail, t.Ordinary m₀ cells := by
  generalize hstatus : CallStatus.running r = status at completes
  induction completes generalizing r known with
  | «over» => cases hstatus
  | @step r₀ trail c rest ih =>
      cases hstatus
      rw [List.forall_mem_cons] at h ⊢
      refine ⟨h.1.narrow tame hw, ?_⟩
      cases hnext : m₀.step r₀ with
      | «over» c' =>
          rw [hnext] at rest
          cases rest
          simp
      | running r' =>
          have hdiscreet := hm.callsDiscreetly h.1
          obtain ⟨known', hmono, hspares, htame⟩ :=
            tame_step hm.verified hm.limit tame holds hdiscreet.confined hnext
          exact ih htame (fun a ha => hmono a (holds a ha))
            (wraps_step tame hdiscreet hnext hspares hw) h.2 hnext.symm

end Machine.Instruments

namespace Machine

section

variable {d t : Method}

end

end Machine

end Resumable
