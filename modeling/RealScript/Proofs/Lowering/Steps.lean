import RealScript.Lowering
import RealScript.Proofs.Code.Growth

/-! # The steps of lowering

Whatever lowering does is a sequence of few kinds of steps, and this holds of a run that fails as
well. Each step adds to the function that is being lowered, opens a new function, binds a name or
moves on; no step touches a function that an earlier unit has made.
-/

namespace RealScript

def Function.opened (id : Nat) (name : String) (params : List String) : Function :=
  (Function.addBlock
    { ref := ⟨id, name, params.map fun _ => .real, .real⟩, paramNames := params } "entry").2

def Function.host (id : Nat) (name : String) (params : List String) : Function :=
  { ref := ⟨id, name, params.map fun _ => .real, .real⟩, paramNames := params, native := true }

def Module.refs (m : Module) : List FuncRef := m.functions.map (·.ref)

namespace Lowering

def fn? (s : Lowering) : Option Nat := s.builder.point.map (·.fn)

def push (s : Lowering) (f : Function) (point : Option BlockRef) : Lowering :=
  { s with
    builder := { module := { s.module with store := s.module.store.push f }, point := point }
    created := s.created ++ [f.ref] }

def Plain (name : String) : Prop := '.' ∉ name.toList

theorem not_plain_unitName (n : Nat) : ¬ Plain (unitName n) := by
  simp [Plain, unitName]

theorem not_plain_funcName (n : Nat) : ¬ Plain (funcName n) := by
  simp [Plain, funcName]

inductive Step : Lowering → Lowering → Prop where
  | build {s : Lowering} {α : Type} {op : Build α} {x : α} {b : Builder} : op.Offered →
      op s.builder = .ok x b → Step s { s with builder := b }
  | define {s : Lowering} {name : String} {params : List String} : s.module.find? name = none →
      (Plain name → s.scopes.globals.lookup name = none) →
      Step s (s.push (.opened s.module.store.size name params)
        (some ⟨s.module.store.size, 0, "entry"⟩))
  | host {s : Lowering} {name : String} {params : List String} : s.module.find? name = none →
      s.scopes.globals.lookup name = none → (name, params.length) ∈ s.hosts →
      Step s (s.push (.host s.module.store.size name params) s.builder.point)
  | moveTo {s : Lowering} {point : Option BlockRef} :
      (∀ r, point = some r → ∃ f ∈ s.created, f.id = r.fn) →
      Step s { s with builder := { s.builder with point := point } }
  | enter {s : Lowering} {owner : FuncRef} : s.fn? = some owner.id →
      Step s { s with scopes := s.scopes.enter owner }
  | leave {s : Lowering} : Step s { s with scopes := s.scopes.leave }
  | bindLocal {s : Lowering} {frame : ScopeFrame} {outer : List ScopeFrame} {f : Function}
      {name : String} {ty : Ty} : s.scopes.inner = frame :: outer → s.fn? = some frame.owner.id →
      s.module.function? frame.owner.id = some f → frame.vars.lookup name = none →
      Step s { s.setModule (s.module.modify f.id fun _ => (f.addSlot name ty).2) with
        scopes := { s.scopes with inner :=
          { frame with vars := frame.vars ++ [(name, (f.addSlot name ty).1)] } :: outer } }
  | bindGlobal {s : Lowering} {name : String} {ty : Ty} : s.scopes.inner = [] → Plain name →
      s.scopes.globals.lookup name = none → s.module.find? name = none →
      Step s { s.setModule (s.module.newGlobal name ty).2 with
        scopes := { s.scopes with
          globals := s.scopes.globals ++ [(name, (s.module.newGlobal name ty).1)] } }
  | deepen {s : Lowering} (depth : Nat) : Step s { s with depth := depth }
  | count {s : Lowering} : Step s { s with nextFunc := s.nextFunc + 1 }

def Steps : Lowering → Lowering → Prop := Relation.ReflTransGen Step

end Lowering

namespace Module

variable {m m' : Module}

theorem find?_ref (m : Module) (name : String) :
    (m.find? name).map (·.ref) = m.refs.find? (·.name == name) := by
  rw [find?, refs, List.find?_map]
  rfl

theorem find?_eq_none_iff {name : String} : m.find? name = none ↔ ∀ f ∈ m.refs, f.name ≠ name := by
  rw [← Option.map_eq_none_iff (f := (·.ref)), find?_ref, List.find?_eq_none]
  simp

theorem mem_functions {f : Function} :
    f ∈ m.functions ↔ ∃ k, m.function? k = some f ∧ f.listed = true := by
  simp [functions, function?, Array.mem_iff_getElem?]

theorem refs_congr {m m' : Module} (h : m'.store.toList.map (fun f => (f.ref, f.listed)) =
    m.store.toList.map (fun f => (f.ref, f.listed))) : m'.refs = m.refs := by
  have hrefs : ∀ m : Module, m.refs =
      ((m.store.toList.map fun f => (f.ref, f.listed)).filter (·.2)).map (·.1) := by
    intro m
    simp only [refs, functions, List.filter_map, List.map_map]
    rfl
  rw [hrefs, hrefs, h]

theorem GrowsIn.headers {fn : Option Nat} (h : m.GrowsIn fn m') :
    m'.store.toList.map (fun f => (f.ref, f.listed)) =
      m.store.toList.map (fun f => (f.ref, f.listed)) := by
  refine List.ext_getElem? fun k => ?_
  simp only [List.getElem?_map, Array.getElem?_toList]
  cases hf : m.function? k with
  | none =>
    have hk : m.store.size ≤ k := by simpa [function?] using hf
    rw [Array.getElem?_eq_none hk, Array.getElem?_eq_none (by rw [h.size]; exact hk)]
  | some f =>
    obtain ⟨g, hg, hgrow⟩ := h.function k f hf
    rw [show m.store[k]? = some f from hf, show m'.store[k]? = some g from hg]
    simp [hgrow.ref, hgrow.listed]

theorem GrowsIn.refs {fn : Option Nat} (h : m.GrowsIn fn m') : m'.refs = m.refs :=
  refs_congr h.headers

theorem refs_push {f : Function} (h : f.listed = true) :
    Module.refs { m with store := m.store.push f } = m.refs ++ [f.ref] := by
  simp [refs, functions, List.filter_append, h]

theorem function?_push (m : Module) (f : Function) (k : Nat) :
    Module.function? { m with store := m.store.push f } k =
      if k = m.store.size then some f else m.function? k := by
  simp only [function?, Array.getElem?_push]

end Module

namespace Lowering

@[simp]
theorem module_setModule (s : Lowering) (m : Module) : (s.setModule m).module = m := rfl

/-- What every step keeps: functions stand at their numbers, have names of their own and are not
left without a body, and code goes to functions of the unit only. -/
structure Orderly (s : Lowering) : Prop where
  numbered : s.module.Numbered
  complete : ∀ f ∈ s.module.functions, f.native = true ∨ f.hasBody = true
  distinct : (s.module.refs.map (·.name)).Nodup
  created : ∀ f ∈ s.created, ∃ g, s.module.function? f.id = some g ∧ g.ref = f ∧ g.listed = true ∧
    g.Tidy
  point : ∀ r, s.builder.point = some r → ∃ f ∈ s.created, f.id = r.fn

namespace Orderly

variable {s t : Lowering}

section

variable (h : s.Orderly)

include h

theorem function_of_point {r : BlockRef} (hr : s.builder.point = some r) :
    ∃ f, s.module.function? r.fn = some f ∧ f.id = r.fn ∧ f.Tidy := by
  obtain ⟨c, hc, hid⟩ := h.point r hr
  obtain ⟨f, hf, -, -, ht⟩ := h.created c hc
  exact ⟨f, hid ▸ hf, h.numbered _ _ (hid ▸ hf), ht⟩

theorem modify {r : BlockRef} {f g : Function}
    (hf : s.module.function? r.fn = some f) (hg : f.Grows g) (ht : g.Tidy) :
    (s.setModule (s.module.modify r.fn fun _ => g)).Orderly := by
  have hgrows := Module.growsIn_modify hf hg
  refine ⟨h.numbered.modify hf hg.ref, fun f' hf' => ?_, ?_, fun c hc => ?_, h.point⟩
  · obtain ⟨k, hk, hl⟩ := Module.mem_functions.mp hf'
    have hk : (s.module.modify r.fn fun _ => g).function? k = some f' := hk
    rw [Module.function?_modify] at hk
    split at hk
    · subst k
      obtain ⟨f'', hf'', rfl⟩ := Option.map_eq_some_iff.mp hk
      rcases h.complete f (Module.mem_functions.mpr ⟨_, hf, hg.listed ▸ hl⟩) with hn | hb
      · exact .inl (hg.native.trans hn)
      · exact .inr (hg.hasBody hb)
    · exact h.complete f' (Module.mem_functions.mpr ⟨k, hk, hl⟩)
  · rw [module_setModule, hgrows.refs]
    exact h.distinct
  · obtain ⟨g', hg', hcref, hl, ht'⟩ := h.created c hc
    refine (em (r.fn = c.id)).elim (fun hid => ⟨g, ?_, ?_, ?_, ht⟩) fun hid => ⟨g', ?_,
      hcref, hl, ht'⟩
    · rw [module_setModule, Module.function?_modify, if_pos hid, hg']
      rfl
    · cases hf.symm.trans (hid ▸ hg')
      exact hg.ref.trans hcref
    · cases hf.symm.trans (hid ▸ hg')
      exact hg.listed.trans hl
    · rw [module_setModule, Module.function?_modify, if_neg hid, hg']

theorem push {f : Function} {point : Option BlockRef}
    (hid : f.id = s.module.store.size) (hl : f.listed = true) (ht : f.Tidy)
    (hb : f.native = true ∨ f.hasBody = true) (hname : s.module.find? f.name = none)
    (hp : ∀ r, point = some r → ∃ g ∈ s.created ++ [f.ref], g.id = r.fn) :
    (s.push f point).Orderly := by
  have hm : (s.push f point).module = { s.module with store := s.module.store.push f } := rfl
  refine ⟨fun k g hk => ?_, fun g hg => ?_, ?_, fun g hg => ?_, hp⟩
  · rw [hm, Module.function?_push] at hk
    split at hk
    · cases hk
      exact hid.trans (Eq.symm ‹_›)
    · exact h.numbered k g hk
  · obtain ⟨k, hk, hgl⟩ := Module.mem_functions.mp hg
    rw [hm, Module.function?_push] at hk
    split at hk
    · cases hk
      exact hb
    · exact h.complete g (Module.mem_functions.mpr ⟨k, hk, hgl⟩)
  · rw [hm, Module.refs_push hl, List.map_append, List.nodup_append]
    refine ⟨h.distinct, List.nodup_singleton _, ?_⟩
    rintro n hn n' hn' rfl
    obtain ⟨g, hg, rfl⟩ := List.mem_map.mp hn
    exact Module.find?_eq_none_iff.mp hname g hg (List.mem_singleton.mp hn')
  · rcases List.mem_append.mp hg with hg | hg
    · obtain ⟨g', hg', hr, hl', ht'⟩ := h.created g hg
      refine ⟨g', ?_, hr, hl', ht'⟩
      have hlt : g.id < s.module.store.size := (Array.getElem?_eq_some_iff.mp hg').1
      rw [hm, Module.function?_push, if_neg (Nat.ne_of_lt hlt), hg']
    · obtain rfl := List.mem_singleton.mp hg
      exact ⟨f, by rw [hm, Module.function?_push]; exact if_pos hid, rfl, hl, ht⟩

theorem exists_grows {b : Builder} (hc : s.builder.Change b) :
    ∃ r f g, s.builder.point = some r ∧ s.module.function? r.fn = some f ∧ f.Grows g ∧ g.Tidy ∧
      { s with builder := b } = s.setModule (s.module.modify r.fn fun _ => g) := by
  obtain ⟨r, f, g, hr, hf, hg, ht, rfl⟩ := hc.exists_grows h.numbered fun f hf => by
    obtain ⟨r, hr, hf⟩ := Option.bind_eq_some_iff.mp hf
    obtain ⟨f', hf', -, ht⟩ := h.function_of_point hr
    cases hf.symm.trans hf'
    exact ht
  exact ⟨r, f, g, hr, hf, hg, ht, rfl⟩

theorem step (hs : Step s t) : t.Orderly := by
  cases hs with
  | build ho hx =>
    obtain ⟨r, f, g, -, hf, hg, ht, he⟩ := h.exists_grows (ho.change hx)
    rw [he]
    exact h.modify hf hg ht
  | define hf =>
    refine h.push rfl rfl ⟨?_, ?_, ?_, ?_, ?_, ?_⟩ (.inr rfl) hf fun r hr => ?_
    · intro b hb
      obtain rfl := List.mem_singleton.mp hb
      exact Nat.zero_lt_one
    all_goals try simp [Function.opened, Function.addBlock, code]
    cases hr
    exact .inr rfl
  | host hf =>
    refine h.push rfl rfl ⟨?_, ?_, ?_, ?_, ?_, ?_⟩ (.inl rfl) hf fun r hr => ?_
    all_goals try simp [Function.host, code]
    obtain ⟨f, hf, hid⟩ := h.point r hr
    exact .inl ⟨f, hf, hid⟩
  | moveTo hp => exact ⟨h.numbered, h.complete, h.distinct, h.created, hp⟩
  | @bindLocal frame outer f name ty _ hfn hf _ =>
    obtain ⟨r, hr, hid⟩ := Option.map_eq_some_iff.mp hfn
    obtain ⟨f', hf', hid', ht⟩ := h.function_of_point hr
    obtain rfl := Option.some.inj (hf'.symm.trans (hid ▸ hf))
    have := h.modify hf' (f'.grows_addSlot name ty) (ht.addSlot name ty)
    rw [← hid'] at this
    exact ⟨this.numbered, this.complete, this.distinct, this.created, this.point⟩
  | bindGlobal => exact ⟨h.numbered, h.complete, h.distinct, h.created, h.point⟩
  | enter | leave | deepen | count => exact ⟨h.numbered, h.complete, h.distinct, h.created, h.point⟩

theorem steps (hs : Steps s t) : t.Orderly := by
  induction hs with
  | refl => exact h
  | tail _ hs ih => exact ih.step hs

end

end Orderly

theorem Steps.created {s t : Lowering} (h : Steps s t) : s.created <+: t.created := by
  induction h with
  | refl => exact List.prefix_rfl
  | tail _ hs ih =>
    refine ih.trans ?_
    cases hs with
    | define | host => exact List.prefix_append _ _
    | _ => exact List.prefix_rfl

def Hosted (n : Nat) (s : Lowering) : Prop :=
  ∀ k f, n ≤ k → s.module.function? k = some f → f.native = true →
    (f.name, f.ref.params.length) ∈ s.hosts

theorem Hosted.modify {n k : Nat} {s : Lowering} {f g : Function} (h : s.Hosted n)
    (hf : s.module.function? k = some f) (hg : f.Grows g) :
    (s.setModule (s.module.modify k fun _ => g)).Hosted n := by
  intro j f' hj hf' hn
  rw [module_setModule, Module.function?_modify] at hf'
  split at hf'
  · subst j
    rw [hf] at hf'
    cases hf'
    rw [Function.name, hg.ref]
    exact h k f hj hf (hg.native.symm.trans hn)
  · exact h j f' hj hf' hn

theorem Steps.hosted {s t : Lowering} (h : Steps s t) (ho : s.Orderly) {n : Nat} (hs : s.Hosted n) :
    t.hosts = s.hosts ∧ t.Hosted n := by
  induction h with
  | refl => exact ⟨rfl, hs⟩
  | @tail t u hst hstep ih =>
    obtain ⟨hhosts, ht⟩ := ih
    have hpush : ∀ (f : Function) point, (f.native = true →
      (f.name, f.ref.params.length) ∈ t.hosts) → (t.push f point).Hosted n := by
      intro f point hf k f' hk hf' hn
      rw [show (t.push f point).module = { t.module with store := t.module.store.push f } from rfl,
        Module.function?_push] at hf'
      split at hf'
      · cases hf'
        exact hf hn
      · exact ht k f' hk hf' hn
    cases hstep with
    | build hoff hx =>
      obtain ⟨r, f, g, -, hf, hg, -, he⟩ := (ho.steps hst).exists_grows (hoff.change hx)
      rw [he]
      exact ⟨hhosts, ht.modify hf hg⟩
    | define => exact ⟨hhosts, hpush _ _ nofun⟩
    | host _ _ hmem =>
      exact ⟨hhosts, hpush _ _ fun _ => by simpa [Function.host, Function.name] using hmem⟩
    | @bindLocal frame outer f name ty _ _ hf _ =>
      have hid := (ho.steps hst).numbered _ _ hf
      exact ⟨hhosts, ht.modify (hid ▸ hf) (f.grows_addSlot name ty)⟩
    | moveTo | enter | leave | bindGlobal | deepen | count => exact ⟨hhosts, ht⟩

theorem Steps.counters {s t : Lowering} (h : Steps s t) :
    t.nextUnit = s.nextUnit ∧ s.nextFunc ≤ t.nextFunc := by
  induction h with
  | refl => exact ⟨rfl, Nat.le_refl _⟩
  | tail _ hs ih =>
    cases hs with
    | count => exact ⟨ih.1, Nat.le_succ_of_le ih.2⟩
    | _ => exact ih

end Lowering

end RealScript
