import RealScript.Proofs.Lowering.Acceptance
import RealScript.Proofs.Lowering.Tables
import RealScript.Proofs.Session.Lawful

/-! # Sessions stay well formed

Between units the names of a session stand for its globals one by one, in the order in which they
were declared, and no name is also one of a function. All functions are native or verified, and what
they refer to is there. This holds after units that were kept, that failed and that were undone.
Tables that are kept along agree with the orders of functions and of names.
-/

namespace RealScript

variable {m : Module} {p : Program} {us : List CodeUnit}

namespace Lowering

variable {base : Module} {reach : Nat → Nat} {s t : Lowering} {u : CodeUnit}

/-- Names of globals are those of their slots, are all different and are no names of functions. -/
structure Titled (s : Lowering) : Prop where
  name : ∀ x ∈ s.scopes.globals, x.1 = x.2.name
  plain : ∀ x ∈ s.scopes.globals, Plain x.1
  alone : ∀ x ∈ s.scopes.globals, ∀ r ∈ s.module.refs, r.name ≠ x.1
  distinct : (s.scopes.globals.map Prod.fst).Nodup

theorem Titled.congr (h : s.Titled) (hg : t.scopes.globals = s.scopes.globals)
    (hr : t.module.refs = s.module.refs) : t.Titled := by
  refine ⟨?_, ?_, ?_, ?_⟩ <;> rw [hg]
  · exact h.name
  · exact h.plain
  · rw [hr]
    exact h.alone
  · exact h.distinct

theorem Titled.push (h : s.Titled) {f : Function} {point : Option BlockRef} (hl : f.listed = true)
    (hname : Plain f.name → s.scopes.globals.lookup f.name = none) : (s.push f point).Titled := by
  refine ⟨h.name, h.plain, fun x hx r hr => ?_, h.distinct⟩
  rw [show (s.push f point).module = { s.module with store := s.module.store.push f } from rfl,
    Module.refs_push hl] at hr
  rcases List.mem_append.mp hr with hr | hr
  · exact h.alone x hx r hr
  · obtain rfl := List.mem_singleton.mp hr
    intro he
    have hnone := hname (show Plain f.ref.name from he ▸ h.plain x hx)
    have := List.lookup_eq_none_iff.mp hnone x hx
    simp [← he, Function.name] at this

theorem Titled.step (h : s.Titled) (ho : s.Orderly) (hs : Step s t) : t.Titled := by
  cases hs with
  | build hoff hx =>
    obtain ⟨r, f, g, -, hf, hg, -, he⟩ := ho.exists_grows (hoff.change hx)
    rw [he]
    exact h.congr rfl (Module.growsIn_modify hf hg).refs
  | define _ hname => exact h.push rfl hname
  | host _ hname _ => exact h.push rfl fun _ => hname
  | @bindLocal frame outer f name ty _ hfn hf _ =>
    have hid := ho.numbered _ _ hf
    exact h.congr rfl (Module.growsIn_modify (hid ▸ hf) (f.grows_addSlot name ty)).refs
  | @bindGlobal name ty _ hplain hnone hfun =>
    refine ⟨fun x hx => ?_, fun x hx => ?_, fun x hx r hr => ?_, ?_⟩
    · rcases List.mem_append.mp hx with hx | hx
      · exact h.name x hx
      · obtain rfl := List.mem_singleton.mp hx
        rfl
    · rcases List.mem_append.mp hx with hx | hx
      · exact h.plain x hx
      · obtain rfl := List.mem_singleton.mp hx
        exact hplain
    · rcases List.mem_append.mp hx with hx | hx
      · exact h.alone x hx r hr
      · obtain rfl := List.mem_singleton.mp hx
        exact Module.find?_eq_none_iff.mp hfun r hr
    · rw [List.map_append, List.nodup_append]
      refine ⟨h.distinct, List.nodup_singleton _, fun x hx y hy he => ?_⟩
      obtain rfl : y = name := List.mem_singleton.mp hy
      obtain ⟨z, hz, rfl⟩ := List.mem_map.mp hx
      have := List.lookup_eq_none_iff.mp hnone z hz
      simp [he] at this
  | moveTo | enter | leave | deepen | count => exact h.congr rfl rfl

theorem Titled.steps (h : s.Titled) (ho : s.Orderly) (hs : Steps s t) : t.Titled := by
  induction hs with
  | refl => exact h
  | tail hs hstep ih => exact ih.step (ho.steps hs) hstep

structure Sober (s : Lowering) : Prop where
  ahead : s.Ahead
  housed : s.Housed
  titled : s.Titled
  function : ∀ k f, s.module.function? k = some f → f.listed = true ∧ ∀ x ∈ f.slots, x.ty ≠ .void

theorem slots_of_fresh (hm : m.Fresh) (k : Nat) (f : Function)
    (hf : m.function? k = some f) : f.slots = [] := by
  induction hm with
  | empty => simp [Module.function?] at hf
  | @native m m' name params ret g hm _ hd ih =>
    cases hfind : m.find? name with
    | some f' =>
      have hn := hm.untouched.function f' (Array.mem_toList_iff.mp
        (List.mem_filter.mp (List.mem_of_find?_eq_some hfind)).1)
      simp only [Module.declareNative, Module.declare, hfind, hn.1, Bool.or_true, if_true] at hd
      split at hd <;> cases hd
    | none =>
      obtain ⟨names, hnew⟩ := Module.declareNative_of_find? hfind params ret
      rw [hnew] at hd
      obtain ⟨-, rfl⟩ := Prod.mk.inj (Except.ok.inj hd)
      rw [Module.function?_push] at hf
      split at hf
      · cases hf
        rfl
      · exact ih hf

theorem sober_start (hm : m.Fresh) (hosts : List (String × Nat)) :
    (Lowering.ofModule m hosts).Sober := by
  have huntouched := hm.untouched
  refine ⟨fun r hr => ?_, ⟨nofun, nofun⟩, ⟨nofun, nofun, nofun, List.nodup_nil⟩, fun k f hf => ?_⟩
  · obtain ⟨f, hf, rfl⟩ := List.mem_map.mp hr
    obtain ⟨-, -, -, hname⟩ := huntouched.function f
      (Array.mem_toList_iff.mp (List.mem_filter.mp hf).1)
    exact ⟨fun n hn => absurd hn (hname.1 n), fun n hn => absurd hn (hname.2 n)⟩
  · refine ⟨(huntouched.function f (Array.mem_of_getElem? hf)).2.1, ?_⟩
    simp [slots_of_fresh hm k f hf]

theorem Sober.restores (h : s.Sober) (ht : t.Restores s) (hu : s.nextUnit ≤ t.nextUnit)
    (hf : s.nextFunc ≤ t.nextFunc) : t.Sober := by
  have hmodule : t.module = s.module := by rw [ht]; rfl
  have hscopes : t.scopes = s.scopes := by rw [ht]
  refine ⟨fun r hr => ?_, ⟨?_, ?_⟩, h.titled.congr (by rw [hscopes]) (by rw [hmodule]), ?_⟩
  · obtain ⟨hunit, hfunc⟩ := h.ahead r (hmodule ▸ hr)
    exact ⟨fun n hn => Nat.lt_of_lt_of_le (hunit n hn) hu,
      fun n hn => Nat.lt_of_lt_of_le (hfunc n hn) hf⟩
  · rw [hscopes]
    exact h.housed.globals
  · rw [hscopes]
    exact h.housed.locals
  · rw [hmodule]
    exact h.function

theorem Sober.optimize (h : s.Sober) (k : Nat) : (s.optimize k).Sober := by
  have hrefs : (s.optimize k).module.refs = s.module.refs := Module.refs_optimize _ _
  refine ⟨fun r hr => h.ahead r (hrefs ▸ hr), ⟨h.housed.globals, h.housed.locals⟩,
    h.titled.congr rfl hrefs, fun j f hf => ?_⟩
  rw [module_optimize, Module.function?_optimize] at hf
  obtain ⟨g, hg, rfl⟩ := Option.map_eq_some_iff.mp hf
  have := h.function j g hg
  split <;> simpa using this

theorem Sober.lower (h : s.Sober) (hs : s.Settled) (hp : Node.ShapedAll .top p) :
    (∀ e t, s.lower p = (.error e, t) → e.Blames) ∧
    ∀ u t, s.lower p = (.ok u, t) → t.Sober ∧
      (∀ k g, s.module.function? k = some g → t.module.function? k = some g) ∧
      ∀ k g, s.module.function? k = none → t.module.function? k = some g → g.Accepted := by
  have hstart : Settled { s with nextUnit := s.nextUnit + 1, created := [] } :=
    ⟨hs.numbered, hs.complete, hs.distinct, hs.last, hs.point, hs.inner, hs.depth, rfl⟩
  have hahead : Ahead { s with nextUnit := s.nextUnit + 1, created := [] } := fun r hr =>
    ⟨fun n hn => Nat.lt_succ_of_lt ((h.ahead r hr).1 n hn), (h.ahead r hr).2⟩
  have hfree : s.module.find? (unitName s.nextUnit) = none :=
    Module.find?_eq_none_iff.mpr fun r hr hn => Nat.lt_irrefl _ ((h.ahead r hr).1 _ hn)
  have hplain := Lower.plainAll_of_shaped hp
  have htitled : Titled { s with nextUnit := s.nextUnit + 1, created := [] } :=
    h.titled.congr rfl rfl
  obtain ⟨hbad, hgood⟩ := Lower.unit_accepts hstart hahead ⟨h.housed.globals,
    h.housed.locals⟩ hp hfree
    (Nat.lt_succ_self s.nextUnit)
  unfold Lowering.lower
  refine ⟨fun e t hx => ?_, fun u t hx => ?_⟩
  · cases hu : Lower.unit p (unitName s.nextUnit)
        { s with nextUnit := s.nextUnit + 1, created := [] } with
    | error e' t' =>
      rw [hu] at hx
      obtain rfl := Except.error.inj (Prod.mk.inj hx).1
      exact hbad _ _ hu
    | ok f t' =>
      rw [hu] at hx
      cases (Prod.mk.inj hx).1
  · cases hu : Lower.unit p (unitName s.nextUnit)
        { s with nextUnit := s.nextUnit + 1, created := [] } with
    | error e' t' =>
      rw [hu] at hx
      cases (Prod.mk.inj hx).1
    | ok f t' =>
      rw [hu] at hx
      obtain ⟨-, rfl⟩ := Prod.mk.inj hx
      obtain ⟨ha, hh, hold, hnew⟩ := hgood f t' hu
      have hsteps := ((Lower.unit_goes hstart p hplain s.nextUnit).ok hu).1
      have htouched := (Touched.refl (s := { s with nextUnit := s.nextUnit + 1, created := [] })
        rfl).steps hstart.orderly hsteps
      refine ⟨⟨ha, ⟨hh.globals, hh.locals⟩, (htitled.steps hstart.orderly hsteps).congr rfl rfl,
        fun k g hg => ?_⟩, hold, hnew⟩
      cases hk : s.module.function? k with
      | some g' =>
        obtain rfl := Option.some.inj ((hold k g' hk).symm.trans hg)
        exact h.function k g' hk
      | none =>
        refine ⟨htouched.listed k g ?_ hg, (hnew k g hk hg).slots⟩
        exact Nat.le_of_not_lt fun hlt => by
          have hsome : s.module.function? k = some s.module.store[k] :=
            Array.getElem?_eq_getElem hlt
          rw [hk] at hsome
          cases hsome

theorem Reachable.sober (h : s.Reachable) : s.Sober := by
  induction h with
  | start hosts hm => exact sober_start hm hosts
  | @unit s src p hr hp ih =>
    have hs := hr.settled
    have hlower := hs.lower (namedAll_of_parse hp)
    have hcounters := hs.lower_counters (namedAll_of_parse hp)
    obtain ⟨-, hok⟩ := ih.lower hs (Program.shaped_of_parse hp)
    split at hlower
    · rename_i t he
      rw [he] at hcounters ⊢
      exact ih.restores hlower (by omega) hcounters.2
    · rename_i u t he
      rw [he]
      exact (hok u t he).1
  | detour hr hd ih =>
    obtain ⟨-, hu, hf⟩ := hd.restores hr.settled
    exact ih.restores (hd.restores_nil hr.settled) hu hf
  | optimize k _ ih => exact ih.optimize k

/-- Lowering never breaks what it builds on. A program that was parsed is rejected for a name, a
type or a number of arguments only; otherwise all functions that it declares are native or verified.
-/
theorem Reachable.lower_verified (hs : s.Reachable) {src : String} {p : Program}
    (hp : Program.parse src = .ok p) :
    (∀ e t, s.lower p = (.error e, t) → e.Blames) ∧
    ∀ u t, s.lower p = (.ok u, t) → ∀ r ∈ u.functions, ∃ f, t.module.function? r.id = some f ∧
      f.ref = r ∧ (f.native = true ∨ f.Verified) := by
  have hlower := hs.settled.lower (namedAll_of_parse hp)
  obtain ⟨hbad, hok⟩ := hs.sober.lower hs.settled (Program.shaped_of_parse hp)
  refine ⟨hbad, fun u t he r hr => ?_⟩
  rw [he] at hlower
  obtain ⟨k, f, hk, hf, rfl⟩ := hlower.2.touched.mem_created hr
  have hf : t.module.function? k = some f := hf
  have hid : f.ref.id = k := hlower.1.numbered k f hf
  refine ⟨f, by rw [hid]; exact hf, rfl, ?_⟩
  exact ((hok u t he).2.2 k f (Array.getElem?_eq_none hk) hf).verified

theorem lower_verified_loop :
    let s := Lowering.ofModule { name := "do" } []
    let p : Program := [.funcDef ⟨1, 1⟩ "h" ["x"] [.whileLoop ⟨1, 13⟩ (.ident ⟨1, 19⟩ "x")
        [.binary ⟨1, 23⟩ "=" (.ident ⟨1, 21⟩ "x") (.unary ⟨1, 25⟩ "not" (.ident ⟨1, 29⟩ "x"))],
      .conditional ⟨1, 37⟩ (.ident ⟨1, 40⟩ "x") [.ret ⟨1, 42⟩ (.ident ⟨1, 49⟩ "x")]
        (some [.binary ⟨1, 58⟩ "=" (.ident ⟨1, 56⟩ "y")
          (.call ⟨1, 60⟩ false "h" [.ident ⟨1, 62⟩ "x"])])]]
    (s.Reachable ∧ Program.parse
      "func h(x) \x7b while x x = not x done; if x return x else y = h(x) done \x7d" = .ok p) ∧
    (∀ e t, s.lower p = (.error e, t) → e.Blames) ∧
    ∀ u t, s.lower p = (.ok u, t) → ∀ r ∈ u.functions, ∃ f, t.module.function? r.id = some f ∧
      f.ref = r ∧ (f.native = true ∨ f.Verified) := by
  intro s p
  have hs : s.Reachable := .start [] (.empty "do")
  have hp : Program.parse
      "func h(x) \x7b while x x = not x done; if x return x else y = h(x) done \x7d" =
        .ok p := by cbv
  exact ⟨⟨hs, hp⟩, hs.lower_verified hp⟩

/-! ## Units that are kept and undone -/

/-- The states of a session that lowers programs and undoes units, the last one first. The units are
those that it has kept. -/
inductive Stacked : List CodeUnit → Lowering → Prop where
  | start {m : Module} (hosts : List (String × Nat)) : m.Fresh → Stacked [] (.ofModule m hosts)
  | kept {us : List CodeUnit} {s t : Lowering} {src : String} {p : Program} {u : CodeUnit} :
      Stacked us s → Program.parse src = .ok p → s.lower p = (.ok u, t) → Stacked (u :: us) t
  | failed {us : List CodeUnit} {s t : Lowering} {src : String} {p : Program} {e : LowerFailure} :
      Stacked us s → Program.parse src = .ok p → s.lower p = (.error e, t) → Stacked us t
  | undone {us : List CodeUnit} {s : Lowering} {u : CodeUnit} : Stacked (u :: us) s →
      Stacked us (s.rollback u)

structure WellFormed (s : Lowering) : Prop where
  frames : s.scopes.inner = []
  names : s.scopes.globals = s.module.globals.map fun g => (g.name, g)
  index : ∀ (k : Nat) (g : Slot), s.module.globals[k]? = some g → g.home = .module ∧ g.index = k
  distinct : (s.module.globals.map (·.name)).Nodup
  alone : ∀ g ∈ s.module.globals, s.module.find? g.name = none
  table : ∀ name f, s.module.find? name = some f ↔ f ∈ s.module.functions ∧ f.name = name
  order : ∀ k f, s.module.function? k = some f ↔ f ∈ s.module.functions ∧ f.id = k
  functions : (s.module.functions.map (·.name)).Nodup
  verified : ∀ f ∈ s.module.functions, f.native = true ∨ f.Verified
  slots : ∀ f ∈ s.module.functions, ∀ i ∈ code f.blocks, ∀ g, i.slot = some g → g.isGlobal = true →
    s.module.globals[g.index]? = some g
  refs : ∀ f ∈ s.module.functions, ∀ i ∈ code f.blocks, ∀ r ∈ i.toOperation.refs,
    ∃ g ∈ s.module.functions, g.ref = r

structure Kept (s : Lowering) : Prop where
  lawful : ∃ base reach, base.Fresh ∧ s.Lawful base reach
  sober : s.Sober
  accepted : ∀ k f, s.module.function? k = some f → f.Accepted

theorem Kept.settled (h : s.Kept) : s.Settled := by
  obtain ⟨_, _, -, hl⟩ := h.lawful
  exact hl.settled

theorem Kept.restores (h : s.Kept) (ht : t.Restores s) (hu : s.nextUnit ≤ t.nextUnit)
    (hf : s.nextFunc ≤ t.nextFunc) : t.Kept := by
  obtain ⟨base, reach, hb, hl⟩ := h.lawful
  have hmodule : t.module = s.module := by rw [ht]; rfl
  refine ⟨⟨base, reach, hb, hl.restores ht⟩, h.sober.restores ht hu hf, ?_⟩
  rw [hmodule]
  exact h.accepted

theorem Kept.lower (h : s.Kept) (hp : Node.ShapedAll .top p)
    (hl : s.lower p = (.ok u, t)) : t.Kept := by
  obtain ⟨base, reach, hb, hlawful⟩ := h.lawful
  obtain ⟨-, reach', hlawful', -⟩ := hlawful.lower hp hl
  obtain ⟨hsober, hold, hnew⟩ := (h.sober.lower hlawful.settled hp).2 u t hl
  refine ⟨⟨base, reach', hb, hlawful'⟩, hsober, fun k f hf => ?_⟩
  cases hk : s.module.function? k with
  | none => exact hnew k f hk hf
  | some g =>
    obtain rfl := Option.some.inj ((hold k g hk).symm.trans hf)
    exact h.accepted k g hk

theorem kept_start (hm : m.Fresh) (hosts : List (String × Nat)) :
    (Lowering.ofModule m hosts).Kept := by
  refine ⟨⟨m, _, hm, lawful_start hm hosts⟩, sober_start hm hosts, fun k f hf => ?_⟩
  obtain ⟨hn, -, hblocks, -⟩ := hm.untouched.function f (Array.mem_of_getElem? hf)
  exact .native hn (slots_of_fresh hm k f hf) hblocks

def Chain : List CodeUnit → Lowering → Prop
  | [], s => s.Kept
  | u :: us, s => s.Kept ∧ ∃ s₀, Chain us s₀ ∧ s₀.Tops u s ∧ s₀.nextUnit ≤ s.nextUnit ∧
      s₀.nextFunc ≤ s.nextFunc

theorem Chain.kept (h : Chain us s) : s.Kept := by
  cases us with
  | nil => exact h
  | cons => exact h.1

theorem Chain.restores (h : Chain us s) (ht : t.Restores s)
    (hu : s.nextUnit ≤ t.nextUnit) (hf : s.nextFunc ≤ t.nextFunc) : Chain us t := by
  have hkept := h.kept.restores ht hu hf
  cases us with
  | nil => exact hkept
  | cons u us =>
    obtain ⟨-, s₀, h₀, htops, hu₀, hf₀⟩ := h
    exact ⟨hkept, s₀, h₀, htops.restores ht, Nat.le_trans hu₀ hu, Nat.le_trans hf₀ hf⟩

theorem Stacked.chain (h : Stacked us s) : Chain us s := by
  induction h with
  | start hosts hm => exact kept_start hm hosts
  | kept _ hp hl ih =>
    have hlower := ih.kept.settled.lower (namedAll_of_parse hp)
    have hcounters := ih.kept.settled.lower_counters (namedAll_of_parse hp)
    rw [hl] at hlower hcounters
    exact ⟨ih.kept.lower (Program.shaped_of_parse hp) hl, _, ih, hlower.2,
      hcounters.1 ▸ Nat.le_succ _, hcounters.2⟩
  | failed _ hp hl ih =>
    have hlower := ih.kept.settled.lower (namedAll_of_parse hp)
    have hcounters := ih.kept.settled.lower_counters (namedAll_of_parse hp)
    rw [hl] at hlower hcounters
    exact ih.restores hlower (hcounters.1 ▸ Nat.le_succ _) hcounters.2
  | undone _ ih =>
    obtain ⟨-, s₀, h₀, htops, hu, hf⟩ := ih
    exact h₀.restores (htops.rollback h₀.kept.settled) hu hf

theorem Kept.order (h : s.Kept) (k : Nat) (f : Function) :
    s.module.function? k = some f ↔ f ∈ s.module.functions ∧ f.id = k := by
  constructor
  · exact fun hf => ⟨Module.mem_functions.mpr ⟨k, hf, (h.sober.function k f hf).1⟩,
      h.settled.numbered k f hf⟩
  · rintro ⟨hf, rfl⟩
    obtain ⟨j, hj, -⟩ := Module.mem_functions.mp hf
    rwa [h.settled.numbered j f hj]

theorem Kept.names (h : s.Kept) : (s.module.functions.map (·.name)).Nodup := by
  have := h.settled.distinct
  rwa [Module.refs, List.map_map] at this

theorem find?_eq_some_iff {α : Type} {key : α → String} {xs : List α} (h : (xs.map key).Nodup)
    {name : String} {x : α} : xs.find? (key · == name) = some x ↔ x ∈ xs ∧ key x = name := by
  refine ⟨fun hf => ⟨List.mem_of_find?_eq_some hf, by simpa using List.find?_some hf⟩, ?_⟩
  rintro ⟨hx, rfl⟩
  induction xs with
  | nil => cases hx
  | cons y xs ih =>
    rw [List.map_cons, List.nodup_cons] at h
    rcases List.mem_cons.mp hx with rfl | hx
    · exact List.find?_cons_of_pos (by simp)
    · have hne : key y ≠ key x := fun he => h.1 (he ▸ List.mem_map_of_mem hx)
      rw [List.find?_cons_of_neg (by simpa using hne)]
      exact ih h.2 hx

theorem Kept.table (h : s.Kept) (name : String) (f : Function) :
    s.module.find? name = some f ↔ f ∈ s.module.functions ∧ f.name = name :=
  find?_eq_some_iff h.names

theorem Kept.wellFormed (h : s.Kept) : s.WellFormed := by
  obtain ⟨base, reach, hb, hl⟩ := h.lawful
  have hname := h.sober.titled.name
  have hnames : s.scopes.globals = s.module.globals.map fun g => (g.name, g) := by
    rw [← hl.bound.globals, List.map_map]
    conv_lhs => rw [← List.map_id s.scopes.globals]
    exact List.map_congr_left fun x hx => Prod.ext (hname x hx) rfl
  have hglobal : ∀ g ∈ s.module.globals, (g.name, g) ∈ s.scopes.globals := by
    intro g hg
    rw [hnames]
    exact List.mem_map_of_mem hg
  -- The code of a function that is not native is lawful, and native functions have none.
  have hcode : ∀ f ∈ s.module.functions, ∀ i ∈ code f.blocks, i.Legal s.module f := by
    intro f hf i hi
    obtain ⟨k, hk, -⟩ := Module.mem_functions.mp hf
    cases h.accepted k f hk with
    | native _ _ hblocks => simp [hblocks, code] at hi
    | code hsane => exact (hl.code k f hk hsane.code).legal i hi
  refine
    { frames := h.settled.inner
      names := hnames
      index := hl.bound.homes
      distinct := ?_
      alone := fun g hg => ?_
      table := h.table
      order := h.order
      functions := h.names
      verified := fun f hf => ?_
      slots := fun f hf i hi g hg hglobal => ?_
      refs := fun f hf i hi r hr => ?_ }
  · have := h.sober.titled.distinct
    rwa [hnames, List.map_map] at this
  · exact Module.find?_eq_none_iff.mpr (h.sober.titled.alone _ (hglobal g hg))
  · obtain ⟨k, hk, -⟩ := Module.mem_functions.mp hf
    exact (h.accepted k f hk).verified
  · rcases (hcode f hf i hi).slot g hg with ⟨-, hk⟩ | ⟨hhome, -⟩
    · exact hk
    · simp [Slot.isGlobal, hhome] at hglobal
  · obtain ⟨⟨g, hg, hr⟩, -⟩ := (hcode f hf i hi).refs r hr
    exact ⟨g, ((h.order _ g).mp hg).1, hr⟩

/-! ## Tables that are kept along -/

def begun (s : Lowering) : Lowering := { s with nextUnit := s.nextUnit + 1, created := [] }

/-- The states of such a session with tables of functions and names. A unit that is lowered declares
its functions and names in them, and a unit that fails or is undone takes them out again. -/
inductive Tallied : List CodeUnit → Tables → Lowering → Prop where
  | start {m : Module} (hosts : List (String × Nat)) : m.Fresh →
      Tallied [] (m.refs.foldl Tables.declare .empty) (.ofModule m hosts)
  | kept {us : List CodeUnit} {d d' : Tables} {s t : Lowering} {src : String} {p : Program}
      {f : FuncRef} : Tallied us d s → Program.parse src = .ok p →
      Lower.unit p (unitName s.nextUnit) s.begun = .ok f t → Tables.Doubled (d, s.begun) (d', t) →
      Tallied (⟨f, t.created, s.checkpoint⟩ :: us) d' { t with created := [] }
  | failed {us : List CodeUnit} {d d' : Tables} {s t : Lowering} {src : String} {p : Program}
      {e : LowerFailure} : Tallied us d s → Program.parse src = .ok p →
      Lower.unit p (unitName s.nextUnit) s.begun = .error e t → Tables.Doubled (d,
        s.begun) (d', t) →
      Tallied us (d'.undo t.created s.scopes.mark) (t.undo t.created s.checkpoint)
  | undone {us : List CodeUnit} {d : Tables} {s : Lowering} {u : CodeUnit} : Tallied (u :: us) d s →
      Tallied us (d.undo u.functions u.before.names) (s.rollback u)

/-- Table and order hold the same functions, and so do the table and the order of names, which stand
for the globals one by one. -/
structure Agrees (s : Lowering) (d : Tables) : Prop where
  functions : d.order = s.module.functions.map (·.ref)
  table : ∀ name r, d.funcs name = some r ↔ r ∈ d.order ∧ r.name = name
  distinct : (d.order.map (·.name)).Nodup
  names : d.names = s.module.globals.map (·.name)
  vars : ∀ name g, d.vars name = some g ↔ g ∈ s.module.globals ∧ g.name = name

theorem lower_of_ok {f : FuncRef} (h : Lower.unit p (unitName s.nextUnit) s.begun = .ok f t) :
    s.lower p = (.ok ⟨f, t.created, s.checkpoint⟩, { t with created := [] }) := by
  unfold begun at h
  simp only [Lowering.lower, h]

theorem lower_of_error {e : LowerFailure}
    (h : Lower.unit p (unitName s.nextUnit) s.begun = .error e t) :
    s.lower p = (.error e, t.undo t.created s.checkpoint) := by
  unfold begun at h
  simp only [Lowering.lower, h]

theorem Settled.begun (h : s.Settled) : s.begun.Settled :=
  ⟨h.numbered, h.complete, h.distinct, h.last, h.point, h.inner, h.depth, rfl⟩

theorem Stacked.exists_tallied (h : Stacked us s) : ∃ d, Tallied us d s := by
  induction h with
  | start hosts hm => exact ⟨_, .start hosts hm⟩
  | @kept us s t src p u h hp hl ih =>
    obtain ⟨d, ih⟩ := ih
    have hs := h.chain.kept.settled.begun
    have hgoes := Lower.unit_goes hs p (namedAll_of_parse hp) s.nextUnit
    cases hu : Lower.unit p (unitName s.nextUnit) s.begun with
    | error e t' =>
      rw [lower_of_error hu] at hl
      cases (Prod.mk.inj hl).1
    | ok f t' =>
      rw [lower_of_ok hu] at hl
      obtain ⟨d', hd⟩ := Tables.exists_doubled hs.orderly (hgoes.ok hu).1 d
      cases hl
      exact ⟨d', ih.kept hp hu hd⟩
  | @failed us s t src p e h hp hl ih =>
    obtain ⟨d, ih⟩ := ih
    have hs := h.chain.kept.settled.begun
    have hgoes := Lower.unit_goes hs p (namedAll_of_parse hp) s.nextUnit
    cases hu : Lower.unit p (unitName s.nextUnit) s.begun with
    | error e' t' =>
      rw [lower_of_error hu] at hl
      obtain ⟨d', hd⟩ := Tables.exists_doubled hs.orderly (hgoes.error hu) d
      cases hl
      exact ⟨_, ih.failed hp hu hd⟩
    | ok f t' =>
      rw [lower_of_ok hu] at hl
      cases (Prod.mk.inj hl).1
  | undone _ ih =>
    obtain ⟨d, ih⟩ := ih
    exact ⟨_, ih.undone⟩

variable {d : Tables}

theorem Tallied.stacked (h : Tallied us d s) : Stacked us s := by
  induction h with
  | start hosts hm => exact .start hosts hm
  | kept _ hp hu _ ih => exact .kept ih hp (lower_of_ok hu)
  | failed _ hp hu _ ih => exact .failed ih hp (lower_of_error hu)
  | undone _ ih => exact .undone ih

theorem Tallied.refines (h : Tallied us d s) : d.Refines s := by
  induction h with
  | @start m hosts hm =>
    obtain ⟨funcs, he, hp⟩ := Tables.foldl_declare (d := .empty) m.refs
      (fun _ => rfl) (by simpa [Tables.empty] using hm.untouched.distinct)
    rw [he]
    exact ⟨rfl, hp, rfl, fun _ => rfl⟩
  | @kept us d d' s t src p f _ hp hu hd ih =>
    have hbegun : d.Refines s.begun := ih.congr rfl rfl
    exact (hbegun.doubled hd).congr rfl rfl
  | @failed us d d' s t src p e h hp hu hd ih =>
    have hbegun : d.Refines s.begun := ih.congr rfl rfl
    have hkept := h.stacked.chain.kept
    have hs := hkept.settled.begun
    have htitled : s.begun.Titled := hkept.sober.titled.congr rfl rfl
    have ho := hs.orderly.steps hd.steps
    have htouched := (Touched.refl (s := s.begun) rfl).steps hs.orderly hd.steps
    exact (hbegun.doubled hd).undo (s := s.begun) htouched ho.distinct
      (htitled.steps hs.orderly hd.steps).distinct
      (htouched.undo ho.numbered ho.distinct hs)
  | @undone us d s u h ih =>
    obtain ⟨hkept, s₀, h₀, htops, -⟩ := h.stacked.chain
    have hrefines : d.Refines { s with created := u.functions } := ih.congr rfl rfl
    rw [htops.before]
    exact hrefines.undo htops.touched hkept.settled.distinct hkept.sober.titled.distinct
      (htops.rollback h₀.kept.settled)

theorem lookup_named (gs : List Slot) (name : String) :
    (gs.map fun g => (g.name, g)).lookup name = gs.find? (·.name == name) := by
  induction gs with
  | nil => rfl
  | cons g gs ih => rw [List.map_cons, List.lookup_cons, ih, List.find?_cons, BEq.comm]

theorem WellFormed.agrees (h : s.WellFormed) (hd : d.Refines s) : s.Agrees d := by
  have hdistinct : (d.order.map (·.name)).Nodup := by
    rw [hd.order, Module.refs, List.map_map]
    exact h.functions
  refine ⟨hd.order, fun name r => ?_, hdistinct, ?_, fun name g => ?_⟩
  · rw [hd.funcs]
    exact find?_eq_some_iff hdistinct
  · rw [hd.names, h.names, List.map_map]
    rfl
  · rw [hd.vars, h.names, lookup_named]
    exact find?_eq_some_iff h.distinct

/-- Sessions stay well formed, whatever programs are lowered and whichever units are undone. Tables
of functions and names can be kept along, and they always agree with their orders. -/
theorem Stacked.stays_wellFormed {us : List CodeUnit} (h : Stacked us s) :
    s.WellFormed ∧ (∃ d, Tallied us d s) ∧ ∀ d, Tallied us d s → s.Agrees d :=
  ⟨h.chain.kept.wellFormed, h.exists_tallied, fun _ hd => h.chain.kept.wellFormed.agrees hd.refines⟩

theorem exists_of_isOk (h : (s.lower p).1.isOk = true) : ∃ u t, s.lower p = (.ok u, t) := by
  rcases hl : s.lower p with ⟨_ | u, t⟩
  · rw [hl] at h
    cases h
  · exact ⟨u, t, rfl⟩

theorem stays_wellFormed_undone :
    let p : Program := [.funcDef ⟨1, 1⟩ "g" ["a"] [.ident ⟨1, 13⟩ "a"]]
    let q : Program := [.binary ⟨1, 3⟩ "=" (.ident ⟨1, 1⟩ "y") (.funcLit ⟨1, 5⟩ ["b"]
      [.call ⟨1, 15⟩ false "g" [.ident ⟨1, 17⟩ "b"]])]
    ∃ u v s t, (Lowering.ofModule { name := "do" } []).lower p = (.ok u, s) ∧
      s.lower q = (.ok v, t) ∧ Stacked [u] (t.rollback v) ∧ (t.rollback v).WellFormed ∧
      ∃ d, Tallied [u] d (t.rollback v) ∧ (t.rollback v).Agrees d := by
  intro p q
  have hp : Program.parse "func g(a) \x7b a \x7d" = .ok p := by cbv
  have hq : Program.parse "y = func(b) \x7b g(b) \x7d" = .ok q := by cbv
  obtain ⟨u, s, hu⟩ := exists_of_isOk (s := .ofModule { name := "do" } []) (p := p)
    (by decide +kernel)
  have hok : (((Lowering.ofModule { name := "do" } []).lower p).2.lower q).1.isOk =
    true := by decide +kernel
  rw [hu] at hok
  obtain ⟨v, t, hv⟩ := exists_of_isOk hok
  have hstacked : Stacked [u] (t.rollback v) :=
    .undone (.kept (.kept (.start [] (.empty "do")) hp hu) hq hv)
  obtain ⟨hwell, ⟨d, hd⟩, hagrees⟩ := hstacked.stays_wellFormed
  exact ⟨u, v, s, t, hu, hv, hstacked, hwell, d, hd, hagrees d hd⟩

end Lowering

end RealScript
