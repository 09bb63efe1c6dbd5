import RealScript.Proofs.Lowering.Units
import RealScript.Proofs.Optimize.Headers
import RealScript.Proofs.Tree.Parsed

/-! # Units that leave nothing behind

Between two units of a session there may be units that fail and units that are undone again, in turn
with such units between their lowering and their undoing. The functions of a unit may be optimised
before it is undone. None of this changes the session, apart from the numbers that are used up.
-/

namespace RealScript

def Module.optimize (m : Module) (k : Nat) : Module := m.modify k fun f => f.optimize.2

namespace Module

variable (m : Module) (k : Nat)

theorem function?_optimize (j : Nat) :
    (m.optimize k).function? j = (m.function? j).map fun f => if k =
    j then f.optimize.2 else f := by
  rw [optimize, function?_modify]
  split <;> simp

theorem headers_optimize : (m.optimize k).store.toList.map (fun f => (f.ref, f.listed)) =
    m.store.toList.map (fun f => (f.ref, f.listed)) := by
  refine List.ext_getElem? fun j => ?_
  simp only [List.getElem?_map, Array.getElem?_toList]
  have hj := m.function?_optimize k j
  simp only [function?] at hj
  rw [hj, Option.map_map]
  refine congrArg (Option.map · _) (funext fun f => ?_)
  simp only [Function.comp_apply]
  split <;> simp

theorem Numbered.optimize {m : Module} (h : m.Numbered) : (m.optimize k).Numbered := by
  intro j f hf
  rw [function?_optimize] at hf
  obtain ⟨g, hg, rfl⟩ := Option.map_eq_some_iff.mp hf
  rw [← h j g hg]
  split <;> simp [Function.id]

theorem refs_optimize : (m.optimize k).refs = m.refs := refs_congr (m.headers_optimize k)

end Module

namespace Lowering

def optimize (s : Lowering) (k : Nat) : Lowering := s.setModule (s.module.optimize k)

@[simp]
theorem module_optimize (s : Lowering) (k : Nat) :
    (s.optimize k).module = s.module.optimize k := rfl

/-- What may come between the units of a session without a trace. The functions `fs` may be
optimised. -/
inductive Detour : List FuncRef → Lowering → Lowering → Prop where
  | none {fs : List FuncRef} {s : Lowering} : Detour fs s s
  | optimize {fs : List FuncRef} {s t : Lowering} {f : FuncRef} : Detour fs s t → f ∈ fs →
      Detour fs s (t.optimize f.id)
  | failed {fs : List FuncRef} {s t t' : Lowering} {src : String} {p : Program} {e : LowerFailure} :
      Detour fs s t → Program.parse src = .ok p → t.lower p = (.error e, t') → Detour fs s t'
  | undone {fs : List FuncRef} {s t t₁ t₂ : Lowering} {src : String} {p : Program} {u : CodeUnit} :
      Detour fs s t → Program.parse src = .ok p → t.lower p = (.ok u, t₁) →
      Detour u.functions t₁ t₂ → Detour fs s (t₂.rollback u)

def Optimized (fs : List FuncRef) : Lowering → Lowering → Prop :=
  Relation.ReflTransGen fun s t => ∃ f ∈ fs, t = s.optimize f.id

variable {s t t' : Lowering} {u : CodeUnit} {fs : List FuncRef}

theorem Settled.optimize (h : s.Settled) (k : Nat) : (s.optimize k).Settled := by
  refine ⟨h.numbered.optimize k, fun f hf => ?_, ?_, fun f hf => ?_, h.point, h.inner, h.depth,
    h.created⟩
  · obtain ⟨j, hj, hl⟩ := Module.mem_functions.mp hf
    rw [module_optimize, Module.function?_optimize] at hj
    obtain ⟨g, hg, rfl⟩ := Option.map_eq_some_iff.mp hj
    have hg' := h.complete g (Module.mem_functions.mpr ⟨j, hg, by split at hl <;> simpa using hl⟩)
    split
    · rwa [Function.native_optimize, Function.hasBody_optimize]
    · exact hg'
  · rw [module_optimize, Module.refs_optimize]
    exact h.distinct
  · have hback : (s.module.optimize k).store.back?.map (fun f => (f.ref, f.listed)) =
        s.module.store.back?.map fun f => (f.ref, f.listed) := by
      have := congrArg List.getLast? (s.module.headers_optimize k)
      simpa [List.getLast?_map] using this
    rw [module_optimize] at hf
    rw [show (s.module.optimize k).store.back? = some f from hf] at hback
    obtain ⟨g, hg, he⟩ := Option.map_eq_some_iff.mp hback.symm
    rw [← (Prod.mk.inj he).2]
    exact h.last g hg

theorem Tops.optimize (h : s.Tops u t) {f : FuncRef} (hf : f ∈ u.functions) :
    s.Tops u (t.optimize f.id) := by
  have hle : s.module.store.size ≤ f.id := h.touched.le_of_created h.numbered hf
  have ht := h.touched
  refine ⟨h.before, ⟨ht.name, ht.loose, ht.hosts, ?_, fun k hk => ?_, ?_, fun k g hk hg => ?_,
    ht.globals, ht.names⟩, h.numbered.optimize _, ?_⟩
  · have := congrArg List.length (t.module.headers_optimize f.id)
    simp only [List.length_map, Array.length_toList] at this
    exact this.symm ▸ ht.size
  · have hold : t.module.function? k = s.module.function? k := ht.old k hk
    change (t.module.optimize f.id).function? k = _
    have hne : f.id ≠ k := by omega
    simp [Module.function?_optimize, hold, hne]
  · have hfst : ∀ l : List Function,
        l.map (·.ref) = (l.map fun f => (f.ref, f.listed)).map Prod.fst := by simp
    have hcreated : u.functions = _ := ht.created
    change u.functions = ((t.module.optimize f.id).store.toList.drop _).map _
    rw [hcreated, List.map_drop, List.map_drop, hfst, hfst, t.module.headers_optimize]
    rfl
  · change (t.module.optimize f.id).function? k = some g at hg
    rw [Module.function?_optimize] at hg
    obtain ⟨g', hg', rfl⟩ := Option.map_eq_some_iff.mp hg
    have hl : g'.listed = true := ht.listed k g' hk hg'
    split <;> simpa using hl
  · rw [module_optimize, Module.refs_optimize]
    exact h.distinct

theorem Tops.optimized (h : s.Tops u t) (ho : Optimized u.functions t t') : s.Tops u t' := by
  induction ho with
  | refl => exact h
  | tail _ hstep ih =>
    obtain ⟨f, hf, rfl⟩ := hstep
    exact ih.optimize hf

theorem Settled.optimized (h : s.Settled) (ho : Optimized fs s t) : t.Settled := by
  induction ho with
  | refl => exact h
  | tail _ hstep ih =>
    obtain ⟨f, hf, rfl⟩ := hstep
    exact ih.optimize f.id

theorem Restores.optimize (h : t.Restores s) (k : Nat) :
    (t.optimize k).Restores (s.optimize k) := by
  unfold Restores at h ⊢
  rw [h]
  rfl

theorem IsName.plain {x : String} (h : IsName x) : Plain x := by
  obtain ⟨c, cs, hx, hc, hcs⟩ := h.spelled
  unfold Plain
  rw [hx, List.mem_cons, not_or]
  refine ⟨?_, fun hd => ?_⟩
  · rintro rfl
    exact absurd hc (by decide)
  · exact absurd (hcs _ hd) (by decide)

theorem namedAll_of_parse {src : String} {p : Program} (h : Program.parse src = .ok p) :
    Node.NamedAll Plain p := by
  have hreserved : ∀ x ∈ reservedNames, Plain x := by simp [reservedNames, Plain]
  exact Node.ShapedAll.named (fun _ => IsName.plain) hreserved _ p (Program.shaped_of_parse h)

theorem Detour.restores (h : Detour fs s t) (hs : s.Settled) :
    (∃ t', Optimized fs s t' ∧ t.Restores t') ∧ s.nextUnit ≤ t.nextUnit ∧ s.nextFunc ≤
    t.nextFunc := by
  induction h with
  | none => exact ⟨⟨_, .refl, .refl _⟩, Nat.le_refl _, Nat.le_refl _⟩
  | @optimize fs s t f _ hf ih =>
    obtain ⟨⟨t', ho, hr⟩, hcounters⟩ := ih hs
    exact ⟨⟨t'.optimize f.id, ho.tail ⟨f, hf, rfl⟩, hr.optimize f.id⟩, hcounters⟩
  | @failed fs s t t₁ src p e _ hp hl ih =>
    obtain ⟨⟨t', ho, hr⟩, hu, hf⟩ := ih hs
    have ht : t.Settled := (hs.optimized ho).restores hr
    have hlower := ht.lower (namedAll_of_parse hp)
    have hcounters := ht.lower_counters (namedAll_of_parse hp)
    simp only [hl] at hlower hcounters
    exact ⟨⟨t', ho, hr.trans hlower⟩, by omega, by omega⟩
  | @undone fs s t t₁ t₂ src p u _ hp hl _ ih ih' =>
    obtain ⟨⟨t', ho, hr⟩, hu, hf⟩ := ih hs
    have ht : t.Settled := (hs.optimized ho).restores hr
    have hlower := ht.lower (namedAll_of_parse hp)
    have hcounters := ht.lower_counters (namedAll_of_parse hp)
    simp only [hl] at hlower hcounters
    obtain ⟨⟨t₃, ho', hr'⟩, hu', hf'⟩ := ih' hlower.1
    have hback := ((hlower.2.optimized ho').restores hr').rollback ht
    exact ⟨⟨t', ho, hr.trans hback⟩, by simp only [rollback, undo]; omega,
      by simp only [rollback, undo]; omega⟩

theorem Detour.restores_nil (h : Detour [] s t) (hs : s.Settled) : t.Restores s := by
  obtain ⟨⟨t', ho, hr⟩, -⟩ := h.restores hs
  induction ho with
  | refl => exact hr
  | tail _ hstep =>
    obtain ⟨f, hf, -⟩ := hstep
    cases hf

end Lowering

end RealScript
