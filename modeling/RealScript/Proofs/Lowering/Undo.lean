import RealScript.Proofs.Lowering.Progress

/-! # Undoing a unit

Lowering a unit appends functions to the module, globals to the module and names to the bottom
frame. Taking the functions off the list by their names, cutting the globals and the names back and
giving the numbers of the functions free again is therefore enough to undo it.
-/

namespace RealScript

namespace Module

variable {m : Module}

def unlist (m : Module) (k : Nat) : Module := m.modify k fun f => { f with listed := false }

theorem refs_unlist_sublist (m : Module) (k : Nat) : (m.unlist k).refs.Sublist m.refs := by
  have hrefs : ∀ fs gs : List Function,
      List.Forall₂ (fun f g => g.ref = f.ref ∧ (g.listed = true → f.listed = true)) fs gs →
      ((gs.filter (·.listed)).map (·.ref)).Sublist ((fs.filter (·.listed)).map (·.ref)) := by
    intro fs gs h
    induction h with
    | nil => exact List.Sublist.slnil
    | @cons f g fs gs hfg _ ih =>
      rw [List.filter_cons, List.filter_cons]
      split
      · rw [if_pos (hfg.2 ‹_›), List.map_cons, List.map_cons, hfg.1]
        exact ih.cons_cons _
      · split
        · exact ih.cons _
        · exact ih
  refine hrefs _ _ (List.forall₂_iff_get.mpr ⟨by simp [unlist, modify], fun i h₁ h₂ => ?_⟩)
  simp only [List.get_eq_getElem, Array.getElem_toList, unlist, modify, Array.getElem_modify]
  split <;> simp

theorem remove_eq_unlist (hd : (m.refs.map (·.name)).Nodup) {k : Nat} {f : Function}
    (hk : m.Numbered) (hf : m.function? k = some f) (hl : f.listed = true) :
    m.remove f.name = m.unlist k := by
  have hmem : f ∈ m.functions := mem_functions.mpr ⟨k, hf, hl⟩
  have hfind : m.find? f.name = some f := by
    cases hg : m.find? f.name with
    | none => exact absurd rfl (find?_eq_none_iff.mp hg f.ref (List.mem_map.mpr ⟨f, hmem, rfl⟩))
    | some g =>
      have hname : g.name = f.name := by simpa using List.find?_some hg
      rw [refs, List.map_map] at hd
      rw [List.inj_on_of_nodup_map hd (List.mem_of_find?_eq_some hg) hmem hname]
  simp only [remove, hfind, unlist, hk k f hf]

theorem function?_foldl_remove (fs : List FuncRef) (m : Module) (hk : m.Numbered)
    (hd : (m.refs.map (·.name)).Nodup) (hn : fs.Nodup)
    (hfs : ∀ f ∈ fs, ∃ g, m.function? f.id = some g ∧ g.ref = f ∧ g.listed = true) :
    let m' := fs.foldl (fun m f => m.remove f.name) m
    (m'.name = m.name ∧ m'.globals = m.globals ∧ m'.loose = m.loose ∧ m'.store.size =
      m.store.size) ∧
    ∀ k, m'.function? k =
      (m.function? k).map fun g => if g.ref ∈ fs then { g with listed := false } else g := by
  induction fs generalizing m with
  | nil => simp
  | cons f fs ih =>
    obtain ⟨hnew, hn'⟩ := List.nodup_cons.mp hn
    obtain ⟨g, hg, rfl, hl⟩ := hfs f List.mem_cons_self
    have hremove : m.remove g.ref.name = m.unlist g.id := remove_eq_unlist hd hk hg hl
    have hat : ∀ k, (m.unlist g.id).function? k =
        if g.id = k then (m.function? k).map fun f => { f with listed := false } else
          m.function? k :=
      fun k => function?_modify m g.id k _
    have hid : ∀ f ∈ fs, g.id ≠ f.id := by
      intro f hf he
      obtain ⟨g', hg', hr, -⟩ := hfs f (List.mem_cons_of_mem _ hf)
      cases hg.symm.trans (he ▸ hg')
      exact hnew (hr ▸ hf)
    have hk' : (m.unlist g.id).Numbered := by
      intro k f hf
      rw [hat] at hf
      split at hf
      · obtain ⟨f', hf', rfl⟩ := Option.map_eq_some_iff.mp hf
        exact hk k f' hf'
      · exact hk k f hf
    obtain ⟨⟨hname, hglobals, hloose, hsize⟩, hfun⟩ := ih (m.unlist g.id) hk'
      (((refs_unlist_sublist m g.id).map _).nodup hd) hn' fun f hf => by
        obtain ⟨g', hg', hr, hl'⟩ := hfs f (List.mem_cons_of_mem _ hf)
        exact ⟨g', by rw [hat, if_neg (hid f hf), hg'], hr, hl'⟩
    rw [List.foldl_cons, hremove]
    refine ⟨⟨hname, hglobals, hloose, hsize.trans (by simp [unlist, modify])⟩, fun k => ?_⟩
    rw [hfun, hat]
    cases hf : m.function? k with
    | none => simp
    | some f' =>
      by_cases he : g.id = k
      · subst he
        cases hg.symm.trans hf
        simp
      · have hne : f'.ref ≠ g.ref := fun h => he ((congrArg FuncRef.id h).symm.trans (hk k f' hf))
        simp [he, hne]

theorem popWhile_of_last {fs : Array Function} (h : ∀ f ∈ fs.back?, f.listed = true) :
    fs.popWhile (fun f => !f.listed) = fs := by
  unfold Array.popWhile
  split
  · rename_i hpos
    have hlast := h fs[fs.size - 1] (by simp [Array.back?])
    simp [hlast]
  · rfl

theorem eq_of_prefix {m m' : Module} (h : ∀ k < m.store.size, m'.function? k = m.function? k) :
    m'.store = m.store ++ (m'.store.toList.drop m.store.size).toArray := by
  refine Array.ext_getElem? fun k => ?_
  rw [Array.getElem?_append]
  split
  · exact h k ‹_›
  · have hk : m.store.size + (k - m.store.size) = k := by omega
    simp [hk]

end Module

namespace Lowering

structure Touched (s t : Lowering) : Prop where
  name : t.module.name = s.module.name
  loose : t.module.loose = s.module.loose
  hosts : t.hosts = s.hosts
  size : s.module.store.size ≤ t.module.store.size
  old : ∀ k < s.module.store.size, t.module.function? k = s.module.function? k
  created : t.created = (t.module.store.toList.drop s.module.store.size).map (·.ref)
  listed : ∀ k f, s.module.store.size ≤ k → t.module.function? k = some f → f.listed = true
  globals : s.module.globals <+: t.module.globals
  names : s.scopes.globals <+: t.scopes.globals

namespace Touched

variable {s t u : Lowering}

theorem refl (hs : s.created = []) : s.Touched s := by
  refine ⟨rfl, rfl, rfl, Nat.le_refl _, fun _ _ => rfl, ?_, fun k f hk hf => ?_,
    List.prefix_rfl, List.prefix_rfl⟩
  · rw [hs, List.drop_eq_nil_of_le (by simp), List.map_nil]
  · have := (Array.getElem?_eq_some_iff.mp hf).1
    omega

section

variable (h : s.Touched t)

include h

theorem mem_created {f : FuncRef} (hf : f ∈ t.created) :
    ∃ k g, s.module.store.size ≤ k ∧ t.module.function? k = some g ∧ g.ref = f := by
  rw [h.created] at hf
  obtain ⟨g, hg, rfl⟩ := List.mem_map.mp hf
  obtain ⟨j, hj⟩ := List.getElem?_of_mem hg
  refine ⟨s.module.store.size + j, g, Nat.le_add_right _ _, ?_, rfl⟩
  simpa [Module.function?] using hj

theorem le_of_created (hn : t.module.Numbered) {f : FuncRef} (hf : f ∈ t.created) :
    s.module.store.size ≤ f.id := by
  obtain ⟨k, g, hk, hg, rfl⟩ := h.mem_created hf
  rwa [show g.ref.id = k from hn k g hg]

theorem modify (ho : t.Orderly) {r : BlockRef} {f g : Function}
    (hr : t.builder.point = some r) (hf : t.module.function? r.fn = some f) (hg : f.Grows g) :
    s.Touched (t.setModule (t.module.modify r.fn fun _ => g)) := by
  have hgrows := Module.growsIn_modify hf hg
  obtain ⟨c, hc, hid⟩ := ho.point r hr
  have hle := h.le_of_created ho.numbered hc
  refine ⟨h.name, h.loose, h.hosts, ?_, fun k hk => ?_, ?_, fun k f' hk hf' => ?_,
    h.globals, h.names⟩
  · rw [module_setModule, hgrows.size]
    exact h.size
  · rw [module_setModule, hgrows.others k (by simp; omega)]
    exact h.old k hk
  · have hfst : ∀ l : List Function,
        l.map (·.ref) = (l.map fun f => (f.ref, f.listed)).map Prod.fst := by simp
    change t.created = _
    rw [module_setModule, h.created, List.map_drop, List.map_drop, hfst, hfst, hgrows.headers]
  · rw [module_setModule, Module.function?_modify] at hf'
    split at hf'
    · obtain ⟨f'', hf'', rfl⟩ := Option.map_eq_some_iff.mp hf'
      rw [hg.listed]
      exact h.listed _ f (by omega) hf
    · exact h.listed k f' hk hf'

theorem push {f : Function} {point : Option BlockRef} (hl : f.listed = true) :
    s.Touched (t.push f point) := by
  have hm : (t.push f point).module = { t.module with store := t.module.store.push f } := rfl
  refine ⟨h.name, h.loose, h.hosts, ?_, fun k hk => ?_, ?_, fun k g hk hg => ?_, h.globals, h.names⟩
  · simpa [hm] using Nat.le_succ_of_le h.size
  · rw [hm, Module.function?_push, if_neg (by have := h.size; omega)]
    exact h.old k hk
  · rw [show (t.push f point).created = t.created ++ [f.ref] from rfl, h.created, hm]
    simp [List.drop_append_of_le_length (show s.module.store.size ≤ t.module.store.toList.length by
      simpa using h.size)]
  · rw [hm, Module.function?_push] at hg
    split at hg
    · cases hg
      exact hl
    · exact h.listed k g hk hg

theorem step (ho : t.Orderly) (hs : Step t u) : s.Touched u := by
  cases hs with
  | build hoffered hx =>
    obtain ⟨r, f, g, hr, hf, hg, -, he⟩ := ho.exists_grows (hoffered.change hx)
    rw [he]
    exact h.modify ho hr hf hg
  | define | host => exact h.push rfl
  | @bindLocal frame outer f name ty _ hfn hf _ =>
    obtain ⟨r, hr, hid⟩ := Option.map_eq_some_iff.mp hfn
    rw [← hid] at hf
    have := h.modify ho hr hf (f.grows_addSlot name ty)
    rw [← ho.numbered _ _ hf] at this
    exact ⟨this.name, this.loose, this.hosts, this.size, this.old, this.created,
      this.listed, this.globals, this.names⟩
  | bindGlobal =>
    exact ⟨h.name, h.loose, h.hosts, h.size, h.old, h.created, h.listed,
      h.globals.trans (List.prefix_append _ _), h.names.trans (List.prefix_append _ _)⟩
  | moveTo | enter | leave | deepen | count =>
    exact ⟨h.name, h.loose, h.hosts, h.size, h.old, h.created, h.listed, h.globals, h.names⟩

theorem steps (ho : t.Orderly) (hs : Steps t u) : s.Touched u := by
  induction hs with
  | refl => exact h
  | tail hs hstep ih => exact ih.step (ho.steps hs) hstep

end

end Touched

structure Settled (s : Lowering) : Prop where
  numbered : s.module.Numbered
  complete : ∀ f ∈ s.module.functions, f.native = true ∨ f.hasBody = true
  distinct : (s.module.refs.map (·.name)).Nodup
  last : ∀ f ∈ s.module.store.back?, f.listed = true
  point : s.builder.point = none
  inner : s.scopes.inner = []
  depth : s.depth = 0
  created : s.created = []

/-- A state that differs from another one in the numbers of units and function literals only. -/
def Restores (t s : Lowering) :
    Prop := t = { s with nextUnit := t.nextUnit, nextFunc := t.nextFunc }

variable {s t : Lowering}

theorem Settled.orderly (h : s.Settled) : s.Orderly := by
  refine ⟨h.numbered, h.complete, h.distinct, ?_, ?_⟩
  · simp [h.created]
  · simp [h.point]

theorem Touched.created_sublist (h : s.Touched t) : t.created.Sublist t.module.refs := by
  have hlisted : ∀ f ∈ t.module.store.toList.drop s.module.store.size, f.listed = true := by
    intro f hf
    obtain ⟨j, hj⟩ := List.getElem?_of_mem hf
    exact h.listed (s.module.store.size + j) f (Nat.le_add_right _ _) (by
      simpa [Module.function?] using hj)
  rw [h.created, ← List.filter_eq_self.mpr hlisted]
  exact ((List.drop_sublist _ _).filter _).map _

theorem Touched.undo_module (h : s.Touched t) (hn : t.module.Numbered)
    (hd : (t.module.refs.map (·.name)).Nodup) (hs : s.Settled) :
    ((t.created.foldl (fun m f => m.remove f.name) t.module).truncateGlobals
      s.module.globals.length).trim = s.module := by
  have hcreated : (t.created.map (·.name)).Nodup := (h.created_sublist.map _).nodup hd
  obtain ⟨⟨hname, hglobals, hloose, -⟩, hfun⟩ := Module.function?_foldl_remove t.created t.module
    hn hd hcreated.of_map fun f hf => by
      obtain ⟨k, g, hk, hg, rfl⟩ := h.mem_created hf
      exact ⟨g, by rwa [show g.ref.id = k from hn k g hg], rfl, h.listed k g hk hg⟩
  generalize t.created.foldl (fun m f => m.remove f.name) t.module = m at hname hglobals hloose hfun
  have hstore : m.store = s.module.store ++ (m.store.toList.drop s.module.store.size).toArray := by
    refine Module.eq_of_prefix fun k hk => ?_
    rw [hfun, h.old k hk]
    cases hf : s.module.function? k with
    | none => rfl
    | some f =>
      -- An older function is none of the unit's.
      have hne : f.ref ∉ t.created := by
        intro hmem
        have hle := h.le_of_created hn hmem
        rw [show f.ref.id = k from hs.numbered k f hf] at hle
        omega
      simp [hne]
  have hunlisted : ∀ f ∈ (m.store.toList.drop s.module.store.size).toArray, !f.listed := by
    intro f hf
    obtain ⟨j, hj⟩ := List.getElem?_of_mem (List.mem_toArray.mp hf)
    have hj : m.function? (s.module.store.size + j) = some f := by simpa [Module.function?] using hj
    rw [hfun] at hj
    obtain ⟨g, hg, rfl⟩ := Option.map_eq_some_iff.mp hj
    have hmem : g.ref ∈ t.created := by
      rw [h.created]
      refine List.mem_map.mpr ⟨g, List.mem_of_getElem? (i := j) ?_, rfl⟩
      simpa [Module.function?] using hg
    simp [hmem]
  obtain ⟨name, globals, store, loose⟩ := m
  have htrim := Module.popWhile_of_last hs.last
  simp only [Module.truncateGlobals, Module.trim] at hname hglobals hloose hstore hunlisted ⊢
  rw [hstore, Array.popWhile_append_of_pos hunlisted, htrim, hname, hglobals, hloose,
    h.name, h.loose,
    List.prefix_iff_eq_take.mp h.globals |>.symm]

theorem Touched.undo (h : s.Touched t) (hn : t.module.Numbered)
    (hd : (t.module.refs.map (·.name)).Nodup) (hs : s.Settled) :
    (t.undo t.created s.checkpoint).Restores s := by
  have hmodule := h.undo_module hn hd hs
  have hnames : t.scopes.rollback s.scopes.mark = s.scopes := by
    have htake := List.prefix_iff_eq_take.mp h.names
    have hinner := hs.inner
    rcases hscopes : s.scopes with ⟨globals, inner⟩
    rw [hscopes] at htake hinner
    simp only [Scopes.rollback, Scopes.mark] at htake hinner ⊢
    rw [← htake, hinner]
  have hpoint := hs.point
  have hdepth := hs.depth
  have hcreated := hs.created
  have hhosts := h.hosts
  obtain ⟨⟨module, point⟩, scopes, nextUnit, nextFunc, depth, created, hosts⟩ := s
  simp only [Restores, Lowering.undo, checkpoint] at *
  simp only [Lowering.module] at *
  rw [hmodule, hnames, hpoint, hdepth, hcreated, hhosts]

end Lowering

end RealScript
