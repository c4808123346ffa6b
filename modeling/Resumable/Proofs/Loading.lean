import Resumable.Machine.Run
import Resumable.Proofs.Typing

/-!
# Loaded methods

All units of a machine were verified when they were loaded.  So every body that the machine may run
has passed analysis.
-/

namespace Resumable

/-- A body that passes verification passes analysis. -/
theorem Method.analyze_of_verifyForLoading {owner : String} {m : Method}
    (h : m.verifyForLoading owner = .ok ()) (hb : m.hasBody) :
    ∃ frames, m.analyze owner = .ok frames ∧ m.checkStackMap frames = .ok () := by
  simp only [verifyForLoading, hb, if_true, Except.bind_eq_ok, verify] at h
  obtain ⟨_, ⟨frames, hframes, hmap⟩, _⟩ := h
  exact ⟨frames, hframes, hmap⟩

theorem CompiledUnit.verifyForLoading_of_mem {u : CompiledUnit} (h : u.verifyForLoading = .ok ())
    {m : Method} (hm : m ∈ u.methods) : m.verifyForLoading u.name = .ok () := by
  simp only [verifyForLoading] at h
  have hcheck := Except.forM_eq_ok.1 h m hm
  split at hcheck
  · assumption
  · cases hcheck

namespace Machine

/-- The machines that are put together by loading units and registering natives. -/
inductive Assembled : Machine → Prop
  | new (limits : Limits) : Assembled (Machine.new limits)
  | load {m m' : Machine} {u : CompiledUnit} :
      Assembled m → m.load u = .ok m' → Assembled m'
  | loadBytes {m m' : Machine} {bytes : Bytes} {name : String} :
      Assembled m → m.loadBytes bytes = .ok (name, m') → Assembled m'
  | register {m : Machine} (method : MethodRef) (native : Native) :
      Assembled m → Assembled (m.register method native)

/-- True if all methods that the machine may enter have passed analysis. -/
def Verified (m : Machine) : Prop :=
  ∀ method declared, m.method? method = some declared → declared.hasBody →
    ∃ frames, declared.analyze method.owner = .ok frames

theorem mem_units_of_load {m m' : Machine} {u : CompiledUnit} (h : m.load u = .ok m') :
    u.verifyForLoading = .ok () ∧ ∀ v ∈ m'.units, v = u ∨ v ∈ m.units := by
  obtain ⟨⟨⟩, hu, h⟩ := Except.bind_eq_ok.1 h
  cases h
  refine ⟨hu, fun v hv => ?_⟩
  rcases List.mem_cons.1 hv with hv | hv
  · exact .inl hv
  · exact .inr (List.mem_of_mem_filter hv)

/-- Every loaded unit has been verified. -/
theorem Assembled.verifyForLoading {m : Machine} (h : m.Assembled) :
    ∀ u ∈ m.units, u.verifyForLoading = .ok () := by
  induction h with
  | new limits => exact fun u hu => absurd hu List.not_mem_nil
  | load _ hload ih =>
      obtain ⟨hu, hmem⟩ := mem_units_of_load hload
      intro v hv
      rcases hmem v hv with rfl | hv
      · exact hu
      · exact ih v hv
  | loadBytes _ hload ih =>
      unfold Machine.loadBytes at hload
      split at hload
      · cases hload
      · obtain ⟨m'', hm'', hload⟩ := Except.bind_eq_ok.1 hload
        cases hload
        obtain ⟨hu, hmem⟩ := mem_units_of_load hm''
        intro v hv
        rcases hmem v hv with rfl | hv
        · exact hu
        · exact ih v hv
  | register method native _ ih => exact ih

variable {m : Machine} {method : MethodRef} {declared : Method}

/-- Where a method that's found comes from. -/
theorem method?_eq_some (h : m.method? method = some declared) :
    ∃ u ∈ m.units, u.name = method.owner ∧ declared ∈ u.methods ∧ declared.name = method.name ∧
      declared.type = method.type := by
  simp only [method?, Option.bind_eq_some_iff] at h
  obtain ⟨u, hu, hd⟩ := h
  have hfound := List.find?_some hd
  simp only [Bool.and_eq_true, decide_eq_true_eq] at hfound
  exact ⟨u, List.mem_of_find?_eq_some hu, by simpa using List.find?_some hu,
    List.mem_of_find?_eq_some hd, hfound.1, hfound.2⟩

theorem Assembled.verified (h : m.Assembled) : m.Verified := by
  intro method declared hd hb
  obtain ⟨u, hu, hname, hmem, -⟩ := method?_eq_some hd
  have hverify := CompiledUnit.verifyForLoading_of_mem (h.verifyForLoading u hu) hmem
  obtain ⟨frames, hframes, -⟩ := Method.analyze_of_verifyForLoading hverify hb
  exact ⟨frames, hname ▸ hframes⟩

end Machine

end Resumable
