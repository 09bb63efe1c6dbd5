import RealScript.Proofs.Lowering.Detours
import RealScript.Proofs.Lowering.Renumbering
import RealScript.Proofs.Optimize.Renaming
import RealScript.Session

/-! # The states of a session

A session starts with native functions only and goes on by units. The state that it is in can be
told from its units that were kept: all others change nothing but the numbers in names.
-/

namespace RealScript

open Lowering

def Unnumbered (name : String) : Prop := (∀ n, name ≠ unitName n) ∧ ∀ n, name ≠ funcName n

theorem Unnumbered.of_plain {name : String} (h : Plain name) : Unnumbered name :=
  ⟨fun n he => not_plain_unitName n (he ▸ h), fun n he => not_plain_funcName n (he ▸ h)⟩

inductive Module.Fresh : Module → Prop where
  | empty (name : String) : Fresh { name := name }
  | native {m m' : Module} {name : String} {params : List Ty} {ret : Ty} {f : Function} : Fresh m →
      Unnumbered name → m.declareNative name params ret = .ok (f, m') → Fresh m'

namespace Module.Fresh

variable {m : Module}

structure Untouched (m : Module) : Prop where
  numbered : m.Numbered
  distinct : (m.refs.map (·.name)).Nodup
  loose : m.loose = []
  function : ∀ f ∈ m.store, f.native = true ∧ f.listed = true ∧ f.blocks = [] ∧ Unnumbered f.name

theorem untouched (h : m.Fresh) : Untouched m := by
  induction h with
  | empty name => exact ⟨by simp [Numbered, function?], by simp [refs, functions], rfl, by simp⟩
  | @native m m' name params ret f _ hname hd ih =>
    cases hfind : m.find? name with
    | some g =>
      have hg := (ih.function g (Array.mem_toList_iff.mp
        (List.mem_filter.mp (List.mem_of_find?_eq_some hfind)).1)).1
      simp only [declareNative, declare, hfind, hg, Bool.or_true, if_true] at hd
      split at hd <;> cases hd
    | none =>
      obtain ⟨names, hnew⟩ := declareNative_of_find? hfind params ret
      rw [hnew] at hd
      obtain ⟨-, rfl⟩ := Prod.mk.inj (Except.ok.inj hd)
      refine ⟨fun k g hk => ?_, ?_, ih.loose, fun g hg => ?_⟩
      · rw [function?_push] at hk
        split at hk
        · cases hk
          exact Eq.symm ‹_›
        · exact ih.numbered k g hk
      · rw [refs_push rfl, List.map_append, List.nodup_append]
        refine ⟨ih.distinct, List.nodup_singleton _, ?_⟩
        rintro x hx y hy rfl
        obtain ⟨g, hg, rfl⟩ := List.mem_map.mp hx
        exact find?_eq_none_iff.mp hfind g hg (List.mem_singleton.mp hy)
      · rcases Array.mem_push.mp hg with hg | rfl
        · exact ih.function g hg
        · exact ⟨rfl, rfl, rfl, hname⟩

theorem globals_eq (h : m.Fresh) : m.globals = [] := by
  induction h with
  | empty => rfl
  | @native m m' name params ret f _ _ hd ih =>
    unfold declareNative declare at hd
    split at hd
    · split at hd
      · cases hd
      · split at hd <;> cases hd
        exact ih
    · cases hd
      exact ih

theorem settled (h : m.Fresh) (hosts : List (String × Nat)) :
    (Lowering.ofModule m hosts).Settled := by
  have hm := h.untouched
  refine ⟨hm.numbered, fun f hf => ?_, hm.distinct, fun f hf => ?_, rfl, rfl, rfl, rfl⟩
  · exact .inl (hm.function f (Array.mem_toList_iff.mp (List.mem_filter.mp hf).1)).1
  · exact (hm.function f (Array.mem_of_back? hf)).2.1

theorem rename_eq (h : m.Fresh) (ρ : Renumbering) : m.rename ρ.name = m := by
  have hm := h.untouched
  have hstore : m.store.map (·.rename ρ.name) = m.store := by
    conv_rhs => rw [← Array.map_id m.store]
    refine Array.map_congr_left fun f hf => ?_
    obtain ⟨-, -, hblocks, hname⟩ := hm.function f hf
    have hname : ρ.name f.ref.name = f.ref.name := ρ.name_of_ne hname.1 hname.2
    obtain ⟨⟨id, name, params, ret⟩, _, _, _, blocks⟩ := f
    simp only at hblocks hname
    simp [Function.rename, FuncRef.rename, hblocks, hname]
  obtain ⟨name, globals, store, loose⟩ := m
  simp only [Module.rename] at hstore ⊢
  rw [hstore, show loose = [] from hm.loose]
  rfl

end Module.Fresh

namespace Lowering

inductive Reachable : Lowering → Prop where
  | start {m : Module} (hosts : List (String × Nat)) : m.Fresh → Reachable (.ofModule m hosts)
  | unit {s : Lowering} {src : String} {p : Program} : Reachable s → Program.parse src = .ok p →
      Reachable (s.lower p).2
  | detour {s t : Lowering} : Reachable s → Detour [] s t → Reachable t
  | optimize {s : Lowering} (k : Nat) : Reachable s → Reachable (s.optimize k)

variable {s s' t t' c : Lowering} {ρ : Renumbering}

theorem Settled.lower_settled (hs : s.Settled) {p : Program} (hp : Node.NamedAll Plain p) :
    (s.lower p).2.Settled := by
  have h := hs.lower hp
  split at h
  · rename_i t he
    rw [he]
    exact hs.restores h
  · rename_i t he
    rw [he]
    exact h.1

theorem Reachable.settled (h : s.Reachable) : s.Settled := by
  induction h with
  | start hosts hm => exact hm.settled hosts
  | unit _ hp ih => exact ih.lower_settled (namedAll_of_parse hp)
  | detour _ hd ih => exact ih.restores (hd.restores_nil ih)
  | optimize k _ ih => exact ih.optimize k

end Lowering

theorem Builtin.fresh_declareAll (bs : List Builtin) (hb : ∀ b ∈ bs, Plain b.name) {m : Module}
    (hm : m.Fresh) : (declareAll bs m).2.Fresh := by
  induction bs generalizing m with
  | nil => exact hm
  | cons b bs ih =>
    unfold declareAll
    split
    · exact ih (fun b hb' => hb b (List.mem_cons_of_mem _ hb'))
        (.native hm (.of_plain (hb b List.mem_cons_self)) ‹_›)
    · exact hm

theorem Builtin.fresh_moduleNamed (name : String) : (moduleNamed name).Fresh := by
  refine fresh_declareAll table (fun b hb => ?_) (.empty name)
  simp only [table, List.mem_cons, List.not_mem_nil, or_false] at hb
  rcases hb with rfl | rfl | rfl | rfl | rfl | rfl <;> simp [Plain]

theorem Module.optimize_eq (m : Module) (k : Nat) : m.optimize k = match m.function? k with
      | none => m
      | some f => m.modify k fun _ => f.optimize.2 := by
  obtain ⟨name, globals, store, loose⟩ := m
  cases hf : store[k]? <;> simp only [function?, hf, optimize, modify, Module.mk.injEq,
    true_and, and_true]
  all_goals
    refine Array.ext_getElem? fun j => ?_
    simp only [Array.getElem?_modify]
    split
    · subst j
      simp only [hf, Option.map_none, Option.map_some]
    · rfl

namespace Session

theorem lowering_log (s : Session) (r : LogRecord) : (s.log r).lowering = s.lowering := by
  unfold log
  split
  · rfl
  · rfl
  · split <;> rfl

theorem lowering_optimize (s : Session) (f : FuncRef) :
    (s.optimize f).lowering = s.lowering.optimize f.id := by
  have hmodule : s.module.optimize f.id = _ := Module.optimize_eq s.module f.id
  unfold optimize Lowering.optimize
  rw [show s.lowering.module = s.module from rfl, hmodule]
  cases s.module.function? f.id with
  | none => rfl
  | some fn =>
    dsimp only
    rw [lowering_log]
    rfl

theorem lowering_foldl_dump (fs : List FuncRef) (s : Session) :
    (fs.foldl dump s).lowering = s.lowering := by
  induction fs generalizing s with
  | nil => rfl
  | cons f fs ih =>
    rw [List.foldl_cons, ih, dump]
    split <;> rfl

end Session

def goOn (f : Nat → Nat) (n m k : Nat) : Nat := if k < n then f k else k - n + m

theorem goOn_injective {f : Nat → Nat} {n m : Nat} (hf : Function.Injective f)
    (hm : ∀ k < n, f k < m) : Function.Injective (goOn f n m) := by
  intro j k h
  unfold goOn at h
  split at h <;> split at h
  · exact hf h
  · have := hm j ‹_›
    omega
  · have := hm k ‹_›
    omega
  · omega

namespace Lowering

variable {s s' t t' c : Lowering} {ρ : Renumbering}

/-- The session in state `s` has the same units as the one in state `c`, in new numbers. The numbers
of `c` are smaller than the ones that come next, so any renumbering will do that agrees on them. -/
structure Follows (ρ : Renumbering) (c s : Lowering) : Prop where
  same (σ : Renumbering) : (∀ k < c.nextUnit, σ.unit k = ρ.unit k) →
    (∀ k < c.nextFunc, σ.func k = ρ.func k) → s.Restores (c.renumber σ)
  unit : ∀ k < c.nextUnit, ρ.unit k < s.nextUnit
  func : ∀ k < c.nextFunc, ρ.func k < s.nextFunc

theorem Follows.restores (h : Follows ρ c s) (ht : t.Restores s) (hu : s.nextUnit ≤ t.nextUnit)
    (hf : s.nextFunc ≤ t.nextFunc) : Follows ρ c t :=
  ⟨fun σ hσ hσ' => (h.same σ hσ hσ').trans ht, fun k hk => Nat.lt_of_lt_of_le (h.unit k hk) hu,
    fun k hk => Nat.lt_of_lt_of_le (h.func k hk) hf⟩

theorem Follows.start {m : Module} (hm : m.Fresh) (hosts : List (String × Nat)) :
    Follows ⟨id, id, Function.injective_id, Function.injective_id⟩ (.ofModule m hosts)
      (.ofModule m hosts) := by
  refine ⟨fun σ _ _ => ?_, fun _ h => absurd h (Nat.not_lt_zero _),
    fun _ h => absurd h (Nat.not_lt_zero _)⟩
  unfold Restores Lowering.renumber
  simp only [ofModule, Builder.rename, hm.rename_eq σ, List.map_nil, Scopes.rename]

theorem Follows.optimize (h : Follows ρ c s) (k : Nat) :
    Follows ρ (c.optimize k) (s.optimize k) := by
  refine ⟨fun σ hσ hσ' => ?_, h.unit, h.func⟩
  have hmodule : (c.module.rename σ.name).optimize k = (c.module.optimize k).rename σ.name := by
    simp only [Module.optimize, Module.modify, Module.rename, Module.mk.injEq, true_and, and_true]
    refine Array.ext_getElem? fun j => ?_
    simp only [Array.getElem?_modify, Array.getElem?_map]
    split
    · cases c.module.store[j]? with
      | none => rfl
      | some f => exact congrArg some (f.optimize_rename σ.name)
    · rfl
  have hsame : (c.renumber σ).optimize k = (c.optimize k).renumber σ := by
    change Lowering.mk _ _ _ _ _ _ _ = Lowering.mk _ _ _ _ _ _ _
    rw [Lowering.mk.injEq]
    exact ⟨congrArg (Builder.mk · _) hmodule, rfl, rfl, rfl, rfl, rfl, rfl⟩
  exact hsame ▸ (h.same σ hσ hσ').optimize k

def Follows.next (h : Follows ρ c s) : Renumbering where
  unit := goOn ρ.unit c.nextUnit s.nextUnit
  func := goOn ρ.func c.nextFunc s.nextFunc
  unit_injective := goOn_injective ρ.unit_injective h.unit
  func_injective := goOn_injective ρ.func_injective h.func

def InNumbers (ρ : Renumbering) (x y : Except LowerFailure CodeUnit × Lowering) : Prop :=
  y.1 = (x.1.mapError (·.rename ρ.name)).map (·.renumber ρ) ∧ y.2.Restores (x.2.renumber ρ)

theorem Follows.lower (h : Follows ρ c s) (hc : c.Settled) {p : Program}
    (hp : Node.NamedAll Plain p) :
    Follows h.next (c.lower p).2 (s.lower p).2 ∧ InNumbers h.next (c.lower p) (s.lower p) := by
  have hcounters := hc.lower_counters hp
  -- Any renumbering that agrees on the numbers so far may be used for this unit.
  have hany : ∀ σ : Renumbering, (∀ k < (c.lower p).2.nextUnit, σ.unit k = h.next.unit k) →
      (∀ k < (c.lower p).2.nextFunc, σ.func k = h.next.func k) →
      InNumbers σ (c.lower p) (s.lower p) ∧ (s.lower p).2.nextUnit = s.nextUnit + 1 ∧
        (s.lower p).2.nextFunc = (c.lower p).2.nextFunc - c.nextFunc + s.nextFunc := by
    intro σ hσ hσ'
    have hs : s = c.along ⟨σ, s.nextUnit, c.nextFunc, s.nextFunc⟩ := by
      have hsame := h.same σ (fun k hk => ?_) fun k hk => ?_
      · rw [hsame]
        simp [Lowering.along]
      · rw [hσ k (by omega)]
        exact if_pos hk
      · rw [hσ' k (by omega)]
        exact if_pos hk
    have hlower := (lower_along (s := c) (ρ := ⟨σ, s.nextUnit, c.nextFunc, s.nextFunc⟩) ?_ rfl hp).2
      fun k hk hlt => ?_
    · rw [← hs] at hlower
      rw [hlower]
      exact ⟨⟨rfl, rfl⟩, rfl, rfl⟩
    · rw [hσ _ (by omega)]
      simp [Follows.next, goOn]
    · rw [hσ' k hlt]
      exact if_neg (Nat.not_lt.mpr hk)
  obtain ⟨hresult, hu, hf⟩ := hany h.next (fun _ _ => rfl) fun _ _ => rfl
  refine ⟨⟨fun σ hσ hσ' => (hany σ hσ hσ').1.2, fun k hk => ?_, fun k hk => ?_⟩, hresult⟩
  · rw [hu]
    simp only [Follows.next, goOn]
    split
    · exact Nat.lt_succ_of_lt (h.unit k ‹_›)
    · omega
  · rw [hf]
    simp only [Follows.next, goOn]
    split
    · have := h.func k ‹_›
      omega
    · omega

end Lowering

end RealScript
