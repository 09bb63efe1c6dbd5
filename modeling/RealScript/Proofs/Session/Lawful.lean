import RealScript.Proofs.Optimize.Lawful

/-! # All code of a session is lawful

A session adds lawful functions to those it has, and optimising keeps them so. Where a function
comes from tells what it may do: only the entries of units store to globals.
-/

namespace RealScript

namespace Lowering

/-- Where a function of a session that started with the module `base` comes from. -/
inductive Origin (base : Module) (hosts : List (String × Nat)) (k : Nat) (f : Function) : Prop where
  | base : base.function? k = some f → Origin base hosts k f
  | written : f.Written → (f.native = true → (f.name, f.ref.params.length) ∈ hosts) →
      Origin base hosts k f
  | entry {n : Nat} : f.ref = ⟨k, unitName n, [], .real⟩ → f.native = false → Origin base hosts k f

/-- A state between units in which all functions are lawful. Functions may read the globals from the
number `reach` on if they were stored to before. -/
structure Lawful (base : Module) (reach : Nat → Nat) (s : Lowering) : Prop where
  settled : s.Settled
  bound : s.Bound
  within : ∀ k f, s.module.function? k = some f → reach k ≤ s.module.globals.length
  code : ∀ k f, s.module.function? k = some f → f.native = false → f.Lawful s.module reach
  origin : ∀ k f, s.module.function? k = some f → Origin base s.hosts k f

variable {base : Module} {reach reach' : Nat → Nat} {s t : Lowering}

theorem Lawful.restores (h : s.Lawful base reach) (ht : t.Restores s) : t.Lawful base reach := by
  have hsettled := h.settled.restores ht
  rw [ht] at hsettled ⊢
  exact ⟨hsettled, ⟨h.bound.globals, h.bound.homes⟩, h.within, h.code, h.origin⟩

theorem lawful_start (hb : base.Fresh) (hosts : List (String × Nat)) :
    (Lowering.ofModule base hosts).Lawful base fun _ => 0 where
  settled := hb.settled hosts
  bound := by
    have hglobals : (Lowering.ofModule base hosts).module.globals = [] := hb.globals_eq
    exact ⟨hglobals.symm, by simp [hglobals]⟩
  within _ _ _ := Nat.zero_le _
  code k f hf hn := by
    rw [(hb.untouched.function f (Array.mem_of_getElem? hf)).1] at hn
    cases hn
  origin _ _ hf := .base hf

theorem Origin.optimize {hosts : List (String × Nat)} {k : Nat} {f : Function}
    (hb : base.Fresh) (h : Origin base hosts k f) : Origin base hosts k f.optimize.2 := by
  cases h with
  | base hf =>
    rw [Machine.optimize_of_native (hb.untouched.function f (Array.mem_of_getElem? hf)).1]
    exact .base hf
  | written hw hh =>
    refine .written ⟨?_, ?_, ?_⟩ ?_
    all_goals simp only [Function.name, Function.ref_optimize, Function.native_optimize]
    · exact hw.nameable
    · exact hw.params
    · exact hw.ret
    · exact hh
  | entry hr hn => exact .entry (f.ref_optimize.trans hr) (f.native_optimize.trans hn)

theorem Lawful.optimize (hb : base.Fresh) (h : s.Lawful base reach) (k : Nat) :
    (s.optimize k).Lawful base reach where
  settled := h.settled.optimize k
  bound := ⟨h.bound.globals, h.bound.homes⟩
  within j f hf := by
    rw [module_optimize, Module.function?_optimize] at hf
    obtain ⟨g, hg, -⟩ := Option.map_eq_some_iff.mp hf
    exact h.within j g hg
  code j f hf hn := by
    rw [module_optimize, Module.function?_optimize] at hf
    obtain ⟨g, hg, rfl⟩ := Option.map_eq_some_iff.mp hf
    have hgn : g.native = false := by split at hn <;> simpa using hn
    have hl := h.code j g hg hgn
    have hid := h.settled.numbered j g hg
    have hmono : ∀ f : Function, f.id = j → f.Lawful s.module reach →
        f.Lawful (s.optimize k).module reach := by
      intro f hf hl
      refine hl.mono List.prefix_rfl (fun i f' hf' => ?_) (fun _ _ _ => rfl) (hf ▸ hg)
      refine ⟨_, by rw [module_optimize, Module.function?_optimize, hf']; rfl, ?_⟩
      dsimp only
      split <;> simp
    split
    · exact hmono _ (by simpa [Function.id] using hid) hl.optimize
    · exact hmono g hid hl
  origin j f hf := by
    rw [module_optimize, Module.function?_optimize] at hf
    obtain ⟨g, hg, rfl⟩ := Option.map_eq_some_iff.mp hf
    split
    · exact (h.origin j g hg).optimize hb
    · exact h.origin j g hg

theorem Lawful.optimized (hb : base.Fresh) (h : s.Lawful base reach) {fs : List FuncRef}
    (ho : Optimized fs s t) : t.Lawful base reach := by
  induction ho with
  | refl => exact h
  | tail _ hstep ih =>
    obtain ⟨f, -, rfl⟩ := hstep
    exact ih.optimize hb f.id

theorem Lawful.lower (h : s.Lawful base reach) {p : Program} (hp : Node.ShapedAll .top p)
    {u : CodeUnit} (hl : s.lower p = (.ok u, t)) :
    u.entry = ⟨s.module.store.size, unitName s.nextUnit, [], .real⟩ ∧
      ∃ reach', t.Lawful base reach' ∧ Adds reach reach' s.nextUnit s t := by
  have hplain : Node.NamedAll Plain p := Node.ShapedAll.named (fun _ => IsName.plain)
    (fun _ => Lower.plain_of_mem_reservedNames) _ p hp
  have htops := h.settled.lower hplain
  rw [hl] at htops
  obtain ⟨hsettled, htops⟩ := htops
  unfold Lowering.lower at hl
  have hstart : Settled { s with nextUnit := s.nextUnit + 1, created := [] } := by
    have hs := h.settled
    exact ⟨hs.numbered, hs.complete, hs.distinct, hs.last, hs.point, hs.inner, hs.depth, rfl⟩
  cases hx : Lower.unit p (unitName s.nextUnit)
      { s with nextUnit := s.nextUnit + 1, created := [] } with
  | error e t' => rw [hx] at hl; cases hl
  | ok f t' =>
    rw [hx] at hl
    obtain ⟨hu, rfl⟩ := Prod.mk.inj hl
    cases hu
    obtain ⟨hentry, reach', ha⟩ := adds_of_unit hstart ⟨h.bound.globals,
      h.bound.homes⟩ h.within hp hx
    have hadds : Adds reach reach' s.nextUnit s { t' with created := [] } :=
      ⟨ha.old, ha.entry, ha.reach, ⟨ha.bound.globals, ha.bound.homes⟩, ha.lawful,
        ha.made, ha.hosted,
        ha.unit⟩
    have hold : ∀ k f, s.module.function? k = some f → t'.module.function? k = some f := by
      intro k f hf
      exact (htops.touched.old k (lt_size_of_function? hf)).trans hf
    refine ⟨hentry, reach', ⟨hsettled, hadds.bound, ha.reach, fun k f hf hn => ?_,
      fun k f hf => ?_⟩,
      hadds⟩
    · rcases Nat.lt_or_ge k s.module.store.size with hk | hk
      · have hfs : s.module.function? k = some f := (htops.touched.old k hk).symm.trans hf
        have hid := h.settled.numbered k f hfs
        refine (h.code k f hfs hn).mono htops.touched.globals (fun j g hg => ⟨g, hold j g hg, rfl⟩)
          (fun j g hg => ha.old j (lt_size_of_function? hg)) (hid.symm ▸ hfs)
      · exact ha.lawful k f hk hf hn
    · have hhosts : t'.hosts = s.hosts := htops.touched.hosts
      rw [show ({ t' with created := [] } : Lowering).hosts = s.hosts from hhosts]
      rcases Nat.lt_trichotomy k s.module.store.size with hk | rfl | hk
      · exact h.origin k f ((htops.touched.old k hk).symm.trans hf)
      · obtain ⟨f', hf', hr, hn, -⟩ := ha.unit
        cases hf'.symm.trans hf
        exact .entry hr hn
      · refine .written (ha.made k f hk hf).toWritten fun hn => ?_
        rw [← hhosts]
        exact ha.hosted k f (Nat.le_of_lt hk) hf hn

theorem Reachable.lawful (h : s.Reachable) : ∃ base reach, base.Fresh ∧ s.Lawful base reach := by
  induction h with
  | @start m hosts hm => exact ⟨m, _, hm, lawful_start hm hosts⟩
  | @unit s src p _ hp ih =>
    obtain ⟨base, reach, hb, ih⟩ := ih
    have hshape := Program.shaped_of_parse hp
    have hl := ih.settled.lower (namedAll_of_parse hp)
    split at hl
    · rename_i t he
      rw [he]
      exact ⟨base, reach, hb, ih.restores hl⟩
    · rename_i u t he
      obtain ⟨-, reach', ht, -⟩ := ih.lower hshape he
      rw [he]
      exact ⟨base, reach', hb, ht⟩
  | detour _ hd ih =>
    obtain ⟨base, reach, hb, ih⟩ := ih
    exact ⟨base, reach, hb, ih.restores (hd.restores_nil ih.settled)⟩
  | optimize k _ ih =>
    obtain ⟨base, reach, hb, ih⟩ := ih
    exact ⟨base, reach, hb, ih.optimize hb k⟩

end Lowering

end RealScript
