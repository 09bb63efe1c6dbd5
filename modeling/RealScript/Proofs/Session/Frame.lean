import RealScript.Proofs.Machine.Likeness
import RealScript.Proofs.Session.TypeSound

/-! # Functions leave globals alone

Only the entries of units store to globals, and no program can call an entry. So every call that is
made leaves the globals as they are, with all that happens in it. Functions that neither read nor
write can then be called on the elements of a collection in any order.
-/

namespace RealScript

variable {r : FuncRef} {d : Nat} {w u : World}

variable {b : Builtin} {x : Float} {next : List Value → Action} {name : String} {v : Value}

theorem Nameable.ne_unitName (h : Nameable name) (n : Nat) : name ≠ Lowering.unitName n := by
  rintro rfl
  rcases h with h | ⟨k, h⟩
  · exact Lowering.not_plain_unitName n (Lowering.IsName.plain h)
  · exact unitName_ne_funcName n k h

/-! ## Stores -/

namespace Lowering

variable {s l t : Lowering} {u : CodeUnit} {k : Nat} {f : Function}

theorem Optimized.function_of {fs : List FuncRef} (ho : Optimized fs l t)
    (hf : t.module.function? k = some f) :
    ∃ g, l.module.function? k = some g ∧ f.ref = g.ref ∧ f.native = g.native ∧
    (g.native = true → f = g) := by
  induction ho generalizing f with
  | refl => exact ⟨f, hf, rfl, rfl, fun _ => rfl⟩
  | tail _ hstep ih =>
    obtain ⟨r, -, rfl⟩ := hstep
    rw [module_optimize, Module.function?_optimize] at hf
    obtain ⟨f', hf', rfl⟩ := Option.map_eq_some_iff.mp hf
    obtain ⟨g, hg, href, hn, hsame⟩ := ih hf'
    refine ⟨g, hg, ?_⟩
    split
    · refine ⟨by simp [href], by simp [hn], fun hnative => ?_⟩
      rw [Machine.optimize_of_native (hn.trans hnative), hsame hnative]
    · exact ⟨href, hn, hsame⟩

theorem Reachable.entry_of_store (h : s.Reachable) {src : String} {p : Program}
    (hp : Program.parse src = .ok p) (hl : s.lower p = (.ok u, l)) (ho : Optimized u.functions l t)
    (hr : r ∈ u.functions) (hf : t.module.function? r.id = some f) {i : Instr}
    (hi : i ∈ RealScript.code f.blocks) {slot : Slot} (hop : i.op = .store)
    (hslot : i.slot = some slot)
    (hglobal : slot.isGlobal = true) : r = u.entry := by
  obtain ⟨base, reach, hb, hlawful⟩ := h.lawful
  have hshaped := Program.shaped_of_parse hp
  obtain ⟨hentry, reach', hlaw, ha⟩ := hlawful.lower hshaped hl
  have htops := h.settled.lower (namedAll_of_parse hp)
  rw [hl] at htops
  obtain ⟨k, g, hk, hg, rfl⟩ := htops.2.touched.mem_created hr
  have hg : l.module.function? k = some g := hg
  have hid : g.ref.id = k := htops.1.numbered k g hg
  rcases Nat.eq_or_lt_of_le hk with rfl | hlt
  · obtain ⟨g', hg', href, -⟩ := ha.unit
    cases hg'.symm.trans hg
    rw [href, hentry]
  · rw [hid] at hf
    obtain ⟨g', hg', href, hn, hsame⟩ := ho.function_of hf
    cases hg.symm.trans hg'
    -- Native functions have no code, and other functions but the entry have no such stores.
    cases ((h.sober.lower h.settled hshaped).2 u l hl).2.2 k g (Array.getElem?_eq_none hk) hg with
    | native hnative _ hblocks =>
      rw [hsame hnative, hblocks] at hi
      cases hi
    | code hsane =>
      have hlegal := ((hlaw.optimized hb ho).code k f hf (hn.trans hsane.code)).legal i hi
      obtain ⟨n, hname⟩ := hlegal.store slot hslot hop (by simpa [Slot.isGlobal] using hglobal)
      have hne := (ha.made k g hlt hg).nameable.ne_unitName n
      rw [Function.name, href] at hname
      exact absurd hname hne

end Lowering

/-! ## Calls -/

namespace Setting

variable {E : Setting} {γ : Function × World} {p : Point}

theorem Allows.still (h : E.Allows γ p) (hn : ∀ n, γ.1.name ≠ Lowering.unitName n) :
    p.world.globals = γ.2.globals := by
  cases p with
  | call f args d w =>
    obtain ⟨rfl, -⟩ := h
    rfl
  | code act w => exact h.toKeeps.still hn
  | native f d a w => exact h.2.2.2
  | back | fail => exact h.2.still hn

theorem Sound.frame (S : E.Sound) (globals : Array Value) : E.machine.Stays E.Bad
      (fun γ p => E.Allows γ p ∧ ∀ n, γ.1.name ≠ Lowering.unitName n) fun w => w.globals =
      globals where
  go γ p p' hp hb ha := ⟨S.contract.go γ p p' hp.1 hb ha, hp.2⟩
  call γ p f args d w next hp hb ha := by
    obtain ⟨γ', hcall, hback⟩ := S.contract.call γ p f args d w next hp.1 hb ha
    have hname := S.name_of_call hp.1 hb ha
    refine ⟨γ', ⟨hcall, ?_⟩, fun q x hx hq => ⟨hback q x hx hq.1, hp.2⟩⟩
    rw [hcall.1]
    exact hname
  stays γ p p' hp hb ha hw := by
    have hp' := S.contract.go γ p p' hp.1 hb ha
    rw [hp'.still hp.2, ← hp.1.still hp.2]
    exact hw

theorem Sound.globals_of_call (S : E.Sound) (hs : ∀ φ, E.excused φ) {f : Function}
    {args : List Value}
    (h : E.Allows (f, w) (.call f args d w)) (hn : ∀ n, f.name ≠ Lowering.unitName n)
    {ps : List Point} {q : Point} (hv : E.machine.Visits (.call f args d w) ps q) :
    q.world.globals = w.globals :=
  (S.frame w.globals).visits hv (fun x _ => not_bad hs x) ⟨h, hn⟩ rfl

end Setting

/-! ## The order of calls -/

def Machine.callAll (m : Machine) (fuel depth : Nat) (r : FuncRef) (xs : List Float) :
    Exec (List Value) :=
  xs.mapM fun x => m.answer fuel depth r [.number x]

def Machine.Silent (m : Machine) (f : Function) (args : List Value) (d : Nat) (w : World) : Prop :=
  ∀ ps q, m.Visits (.call f args d w) ps q → ∀ x ∈ ps, ¬ x.Talks

namespace Machine

open Stateful

variable {m : Machine} {fuel : Nat} {xs : List Float} {w' : World} {vs : List Value}

theorem callAll_cons_eq_ok (h : m.callAll fuel d r (x :: xs) w = .ok vs w') :
    ∃ v u us, m.answer fuel d r [.number x] w = .ok v u ∧ m.callAll fuel d r xs u = .ok us w' ∧
      vs = v :: us := by
  rw [callAll, List.mapM_cons] at h
  obtain ⟨v, u, hv, h⟩ := bind_eq_ok h
  obtain ⟨us, u', hus, h⟩ := bind_eq_ok h
  cases h
  exact ⟨v, u, us, hv, hus, rfl⟩

theorem callAll_cons (hv : m.answer fuel d r [.number x] w = .ok v u)
    (hvs : m.callAll fuel d r xs u = .ok vs w') : m.callAll fuel d r (x :: xs) w = .ok
    (v :: vs) w' := by
  rw [callAll] at hvs
  rw [callAll, List.mapM_cons, bind_run, hv]
  dsimp only
  rw [bind_run, hvs]
  rfl

theorem alike_answer (hm : m.Forwards) (fuel d : Nat) (r : FuncRef) (args : List Value)
    (hw : w.bare = w'.bare) :
    Likewise m.context.Calm (m.answer fuel d r args w) (m.answer fuel d r args w') := by
  unfold answer
  cases m.module.function? r.id with
  | none => exact .error _ hw
  | some f => exact (alike_fuel hm fuel).2.2 f args _ w w' hw

def Yields (m : Machine) (fuel d : Nat) (r : FuncRef) (w : World) (x : Float) (v : Value) : Prop :=
  ∃ u u', u.bare = w.bare ∧ m.answer fuel d r [.number x] u = .ok v u'

theorem Yields.unique (hm : m.Forwards) {v' : Value} (h : m.Yields fuel d r w x v)
    (h' : m.Yields fuel d r w x v') : v = v' := by
  obtain ⟨u, _, hu, hv⟩ := h
  obtain ⟨u', _, hu', hv'⟩ := h'
  have := alike_answer hm fuel d r [.number x] (hu.trans hu'.symm)
  rw [hv, hv'] at this
  cases this
  rfl

def Tame (m : Machine) (fuel d : Nat) (r : FuncRef) (w : World) (xs : List Float) : Prop :=
  ∀ x ∈ xs, ∀ u v u', u.bare = w.bare → m.answer fuel d r [.number x] u = .ok v u' →
    u'.bare = w.bare

theorem Tame.yields (ht : m.Tame fuel d r w xs) {u' : World} (hu : u.bare = w.bare)
    (h : m.callAll fuel d r xs u = .ok vs u') :
    u'.bare = w.bare ∧ List.Forall₂ (m.Yields fuel d r w) xs vs := by
  induction xs generalizing u vs with
  | nil =>
    cases h
    exact ⟨hu, .nil⟩
  | cons x xs ih =>
    obtain ⟨v, u₁, us, hv, hus, rfl⟩ := callAll_cons_eq_ok h
    have hu₁ := ht x List.mem_cons_self u v u₁ hu hv
    obtain ⟨hu', hall⟩ := ih (fun y hy => ht y (List.mem_cons_of_mem _ hy)) hu₁ hus
    exact ⟨hu', .cons ⟨u, u₁, hu, hv⟩ hall⟩

theorem Tame.callAll (hm : m.Forwards) (ht : m.Tame fuel d r w xs) (hcalm : m.context.Calm)
    (hy : ∀ x ∈ xs, ∃ v, m.Yields fuel d r w x v) (hu : u.bare = w.bare) :
    ∃ vs u', m.callAll fuel d r xs u = .ok vs u' := by
  induction xs generalizing u with
  | nil => exact ⟨[], u, rfl⟩
  | cons x xs ih =>
    obtain ⟨v, u₀, u₁, hu₀, hv⟩ := hy x List.mem_cons_self
    have hlike := alike_answer hm fuel d r [.number x] (hu₀.trans hu.symm)
    rw [hv] at hlike
    generalize ha : m.answer fuel d r [.number x] u = res at hlike
    cases hlike with
    | @ok _ _ u₂ =>
      obtain ⟨vs, u', hvs⟩ := ih (fun y hy => ht y (List.mem_cons_of_mem _ hy))
        (fun y h => hy y (List.mem_cons_of_mem _ h)) (ht x List.mem_cons_self u v u₂ hu ha)
      exact ⟨v :: vs, u', callAll_cons ha hvs⟩
    | right h => exact absurd hcalm h

theorem Tame.order (hm : m.Forwards) (ht : m.Tame fuel d r w xs) {results : List Value} {u' : World}
    (hu : u.bare = w.bare) (hr : m.callAll fuel d r xs u = .ok results u')
    {tasks : List (Float × Nat)}
    (hp : tasks.Perm xs.zipIdx) :
    (∀ vs u, m.callAll fuel d r (tasks.map Prod.fst) w = .ok vs u →
    ∀ task v, (task, v) ∈ tasks.zip vs → results[task.2]? = some v) ∧
    (m.context.Calm → ∃ vs u, m.callAll fuel d r (tasks.map Prod.fst) w = .ok vs u) := by
  have hall := (ht.yields hu hr).2
  have hplace : ∀ task ∈ tasks, xs[task.2]? = some task.1 := fun task h =>
    List.mem_zipIdx_iff_getElem?.mp (hp.mem_iff.mp h)
  have ht' : m.Tame fuel d r w (tasks.map Prod.fst) := by
    intro x hx
    obtain ⟨task, htask, rfl⟩ := List.mem_map.mp hx
    exact ht _ (List.mem_of_getElem? (hplace task htask))
  have hat : ∀ task ∈ tasks, ∃ v, results[task.2]? = some v ∧ m.Yields fuel d r w task.1 v := by
    intro task htask
    have hx := hplace task htask
    obtain ⟨hlt, -⟩ := List.getElem?_eq_some_iff.mp hx
    have hlt' : task.2 < results.length := hall.length_eq ▸ hlt
    refine ⟨results[task.2], List.getElem?_eq_getElem hlt', ?_⟩
    have := hall.get hlt hlt'
    simp only [List.get_eq_getElem] at this
    rwa [(List.getElem?_eq_some_iff.mp hx).2] at this
  constructor
  · intro vs u hvs task v hmem
    obtain ⟨-, hys⟩ := ht'.yields rfl hvs
    rw [List.forall₂_map_left_iff] at hys
    obtain ⟨v', hv', hy'⟩ := hat task (List.of_mem_zip hmem).1
    rw [hv', hy'.unique hm (List.forall₂_zip hys hmem)]
  · intro hcalm
    refine ht'.callAll hm hcalm (fun x hx => ?_) rfl
    obtain ⟨task, htask, rfl⟩ := List.mem_map.mp hx
    obtain ⟨v, -, hy⟩ := hat task htask
    exact ⟨v, hy⟩

theorem callAll_of_each {found : List Value} (hr : r.params.length = 1)
    (h : (Builtin.each r next found xs).perform m.context (m.answer fuel d) name w = .ok v w') :
    ∃ vs u, m.callAll fuel d r xs w = .ok vs u ∧
      (next (found.reverse ++ vs)).perform m.context (m.answer fuel d) name u = .ok v w' := by
  induction xs generalizing found w with
  | nil => exact ⟨[], w, rfl, by simpa [Builtin.each] using h⟩
  | cons x xs ih =>
    simp only [Builtin.each, Action.perform] at h
    split at h
    · cases h
    · rw [Action.call, Action.perform_attempt (fun _ => rfl), if_neg (by simp [hr])] at h
      cases ha : m.answer fuel d r [.number x] w with
      | error e u =>
        rw [ha] at h
        cases h
      | ok y u =>
        rw [ha] at h
        obtain ⟨vs, u', hvs, hnext⟩ := ih h
        exact ⟨y :: vs, u', callAll_cons ha hvs, by simpa using hnext⟩

theorem callAll_of_scatter (hr : r.params.length = 1)
    (h : (Builtin.scatter (.function (some r)) xs next).perform m.context (m.answer fuel d) name w =
      .ok v w') :
    ∃ vs u, m.callAll fuel d r xs w = .ok vs u ∧
      (next vs).perform m.context (m.answer fuel d) name u = .ok v w' := by
  simp only [Builtin.scatter, Value.toFunction, Action.perform] at h
  split at h
  · cases h
  · exact callAll_of_each hr h

end Machine

namespace Session

variable {s t : Session} {past : Past} {p : Program} {u : CodeUnit} {l : Lowering} {f g : Function}
  {reach : Nat → Nat}

theorem params_of_name_eq {b' : Builtin} (hb : b ∈ Builtin.table) (hb' : b' ∈ Builtin.table)
    (h : b.name = b'.name) : b.params = b'.params := by
  simp only [Builtin.table, List.mem_cons, List.not_mem_nil, or_false] at hb hb'
  rcases hb with rfl | rfl | rfl | rfl | rfl | rfl <;>
    rcases hb' with rfl | rfl | rfl | rfl | rfl | rfl <;> simp at h ⊢

theorem Opens.builtin (h : Opens s t u f reach) (hb : b ∈ Builtin.table)
    (hg : t.module.function? g.id = some g) (hn : g.native = true) (hname : g.name = b.name) :
    g.ref.params = b.params := by
  cases h.lawful.origin _ g hg with
  | base hbase =>
    obtain ⟨b', hb', hname', hparams, -⟩ := Builtin.function_of_moduleNamed hbase
    rw [hparams, params_of_name_eq hb' hb (hname'.symm.trans hname)]
  | written hw _ => exact absurd (hname ▸ hw.nameable) (Builtin.not_nameable_of_mem_table hb)
  | entry _ hnative => simp [hn] at hnative

theorem Opens.tame (h : Opens s t u f reach) (cancelled : Bool) {first : Nat} {γ : Function × World}
    {xs : List Float} {args : List Value}
    (hq : (t.setting cancelled reach first fun _ => True).Allows γ (.call g args d w))
    (hoffers : t.module.Offers r) (hparams : r.params = [.real])
    (hsilent : ∀ x ∈ xs, ∀ f w', t.module.function? r.id = some f → w'.bare = w.bare →
      (t.machine cancelled).Silent f [.number x] (d + 1) w') (fuel : Nat) :
    (t.machine cancelled).Tame fuel d r w xs := by
  intro x hx u v u' hu hv
  obtain ⟨⟨f', hf', href⟩, hname⟩ := id hoffers
  have S := h.sound cancelled first fun _ => True
  have hmodule : (t.machine cancelled).module.function? r.id = some f' := hf'
  simp only [Machine.answer, hmodule] at hv
  have hglobals : u.globals = w.globals := by
    obtain ⟨c, calls, rfl⟩ := World.bare_eq_iff.mp hu
    rfl
  have hcall : (t.setting cancelled reach first fun _ => True).Allows (f', u)
      (.call f' [.number x] (d + 1) u) := by
    refine (Setting.allows_call (E := t.setting cancelled reach first fun _ => True)
      (d + 1) hoffers hf'
      (fun _ _ _ _ _ _ _ _ => trivial) ?_ (hglobals ▸ hq.globals)).1
    rw [hparams]
    exact .cons (.number x (.inl rfl)) .nil
  have hstop := (Machine.stopsAt_fuel (m := t.machine cancelled) fuel).2.2 f' [.number x] (d + 1) u
  rw [hv] at hstop
  obtain ⟨ps, hpass⟩ := hstop
  have hstill := S.globals_of_call (fun _ => trivial) hcall
    (fun n => by rw [Function.name, href]; exact hname n)
    (.level hpass)
  have houtside := Machine.contract_outside.passes hpass
    (fun y hy => hsilent x hx f' u hf' hu ps _ (.level hpass) y hy) (rfl : u.outside = u.outside)
  exact (World.bare_eq_of_outside houtside hstill).trans hu

/-- The results of calls on the elements of a collection do not depend on their order: whatever
order the elements are taken in, each has the result that stands in its place. -/
def OrderFree (m : Machine) (fuel d : Nat) (r : FuncRef) (xs : List Float) (w : World)
    (results : List Value) : Prop :=
  results.length = xs.length ∧ ∀ tasks : List (Float × Nat), tasks.Perm xs.zipIdx →
    (∀ vs u, m.callAll fuel d r (tasks.map Prod.fst) w = .ok vs u →
      ∀ task v, (task, v) ∈ tasks.zip vs →
      results[task.2]? = some v) ∧
    (m.context.Calm → ∃ vs u, m.callAll fuel d r (tasks.map Prod.fst) w = .ok vs u)

theorem Opens.orderFree (h : Opens s t u f reach) (cancelled : Bool) {first : Nat}
    {γ : Function × World}
    {xs : List Float}
    (hq : (t.setting cancelled reach first fun _ => True).Allows γ
      (.call g [.function (some r), .collection xs] d w))
    (hb : b ∈ Builtin.table) (hparams : b.params = [.func 1, .collection]) (hn : g.native = true)
    (hname : g.name = b.name)
    (hnative : b.native [.function (some r), .collection xs] = Builtin.scatter
    (.function (some r)) xs next)
    (hsilent : ∀ x ∈ xs, ∀ f w', t.module.function? r.id = some f → w'.bare = w.bare →
      (t.machine cancelled).Silent f [.number x] (d + 1) w') {fuel : Nat} {w' : World}
    (hrun : (t.machine cancelled).invoke (fuel + 1) g [.function (some r), .collection xs] d
    w = .ok v w') :
    ∃ results u, OrderFree (t.machine cancelled) fuel d r xs w results ∧
      (next results).perform (t.machine cancelled).context
      ((t.machine cancelled).answer fuel d) g.name u = .ok v w' := by
  have hargs := (Setting.forall₂_holds_iff (E := t.setting cancelled reach first fun _ => True)
    fun _ => trivial).mp hq.2.2.1
  rw [h.builtin hb hq.2.1 hn hname, hparams] at hargs
  obtain ⟨r', hr, hoffers, hsig, -⟩ : ∃ r', Value.function (some r) = .function (some r') ∧
      t.module.Offers r' ∧ r'.params = List.replicate 1 .real ∧ r'.ret = .real := by
    cases hargs with
    | cons hcallback _ => exact hcallback.resolve_left nofun
  obtain rfl : r = r' := by simpa using hr
  have htame := h.tame cancelled hq hoffers hsig hsilent fuel
  have hlook : (t.machine cancelled).native? g.name = some b.native := by
    rw [hname]
    exact Builtin.lookup_of_mem_table hb
  rw [Machine.invoke_native _ _ _ hn hlook, hnative] at hrun
  obtain ⟨results, u, hcalls, hnext⟩ := Machine.callAll_of_scatter (by simp [hsig]) hrun
  -- The calls start in a world that differs from `w` in the list of calls only.
  have hnoted : (w.noteCall g.name [.function (some r), .collection xs]).bare = w.bare := rfl
  refine ⟨results, u, ⟨((htame.yields hnoted hcalls).2.length_eq).symm, fun tasks hp => ?_⟩, hnext⟩
  have hforwards : (t.machine cancelled).Forwards :=
    fun _ _ args hn => Builtin.forwards_natives hn args
  exact htame.order hforwards hnoted hcalls hp

/-- Functions never write globals. In the code of every unit only the entry stores to globals, both
as it was lowered and as it runs. No call that is made in a run, with all that happens in it,
changes a global or reaches an entry. So what a silent function gives for the elements of a
collection, as the built-in functions that go through collections use it, does not depend on the
order of the calls. -/
theorem Reached.functions_keep_globals (h : s.Reached past) (cancelled : Bool) {src : String}
    (hp : Program.parse src = .ok p) (hl : s.lowering.lower p = (.ok u, l)) :
    (∀ m ∈ [l.module, (s.prepare u l).module], ∀ r ∈ u.functions, ∀ f, m.function? r.id = some f →
      ∀ i ∈ code f.blocks, ∀ slot, i.op = .store → i.slot = some slot → slot.isGlobal = true →
        r = u.entry) ∧
    ∃ f, (s.prepare u l).module.function? u.entry.id = some f ∧
      ∀ ps q, ((s.prepare u l).machine cancelled).Visits ((s.prepare u l).opening f) ps q →
        (∀ g args d w next, ((s.prepare u l).machine cancelled).advance q = .call g args d w next →
          (∀ n, g.name ≠ Lowering.unitName n) ∧ w = q.world ∧
          ∀ qs x, ((s.prepare u l).machine cancelled).Visits (.call g args d w) qs x →
            x.world.globals = w.globals) ∧
        ∀ g r xs d w, q = .call g [.function (some r), .collection xs] d w → g.native = true →
          (∀ x ∈ xs, ∀ f w', (s.prepare u l).module.function? r.id = some f → w'.bare = w.bare →
            ((s.prepare u l).machine cancelled).Silent f [.number x] (d + 1) w') →
          ∀ fuel v w', ((s.prepare u l).machine cancelled).invoke (fuel + 1) g
              [.function (some r), .collection xs] d w = .ok v w' →
            (g.name = "map" → ∃ results,
              OrderFree ((s.prepare u l).machine cancelled) fuel d r xs w results ∧
              v = .collection (results.map Value.toNumber)) ∧
            (g.name = "filter" → ∃ results,
              OrderFree ((s.prepare u l).machine cancelled) fuel d r xs w results ∧
              v = .collection (Builtin.keep xs results)) := by
  have hoptimized := (s.optimized_prepare u l).1
  refine ⟨fun m hm r hr f hf i hi slot hop hslot hglobal => ?_, ?_⟩
  · rcases List.mem_cons.mp hm with rfl | hm
    · exact h.reachable.entry_of_store hp hl .refl hr hf hi hop hslot hglobal
    · obtain rfl := List.mem_singleton.mp hm
      exact h.reachable.entry_of_store hp hl hoptimized hr hf hi hop hslot hglobal
  obtain ⟨f, reach, ho⟩ := h.stands.opens hp hl
  refine ⟨f, ho.function, fun ps q hv => ?_⟩
  obtain ⟨γ, hq⟩ := ho.visits h.stands cancelled hv (fun _ => True) fun _ _ _ _ _ => trivial
  refine ⟨fun g args d w next ha => ?_, fun g r xs d w he hn hsilent fuel v w' hrun => ?_⟩
  · have S := ho.sound cancelled s.module.globals.length fun _ => True
    have hb := Setting.not_bad (E := (s.prepare u l).setting cancelled reach s.module.globals.length
      fun _ => True)
      (fun _ => trivial) q
    have hname := S.name_of_call hq hb ha
    obtain ⟨γ', hcall, -⟩ := S.contract.call γ q g args d w next hq hb ha
    obtain rfl : γ' = (g, w) := hcall.1
    exact ⟨hname, (Machine.world_of_call ha).1,
      fun qs x => S.globals_of_call (fun _ => trivial) hcall hname⟩
  · subst he
    constructor
    · intro hname
      obtain ⟨results, u', hfree, hnext⟩ := ho.orderFree cancelled hq
        (b := ⟨"map", [.func 1, .collection], .collection, Builtin.map⟩) (by simp [Builtin.table])
          rfl hn hname rfl hsilent hrun
      exact ⟨results, hfree, (EStateM.Result.ok.inj hnext).1.symm⟩
    · intro hname
      obtain ⟨results, u', hfree, hnext⟩ := ho.orderFree cancelled hq
        (b := ⟨"filter", [.func 1, .collection], .collection, Builtin.filter⟩)
          (by simp [Builtin.table]) rfl hn hname rfl hsilent hrun
      exact ⟨results, hfree, (EStateM.Result.ok.inj hnext).1.symm⟩

theorem functions_keep_globals_shadow :
    let p : Program := [.binary ⟨1, 3⟩ "=" (.ident ⟨1, 1⟩ "x") (.call ⟨1, 5⟩ true "read" []),
      .funcDef ⟨1, 14⟩ "f" ["a"] [.binary ⟨1, 28⟩ "=" (.ident ⟨1, 26⟩ "x") (.ident ⟨1, 30⟩ "a")],
      .funcDef ⟨1, 34⟩ "g" ["b"] [.call ⟨1, 46⟩ false "f" [.ident ⟨1, 48⟩ "b"]],
      .call ⟨1, 53⟩ true "map" [.ident ⟨1, 61⟩ "g", .ident ⟨1, 64⟩ "x"]]
    ∃ u l f, (initial.Reached .blank ∧ Program.parse
          "x = do(read) func f(a) \x7b x = a \x7d func g(b) \x7b f(b) \x7d do(map, g, x)" = .ok p ∧
        initial.lowering.lower p = (.ok u, l)) ∧
      (∀ r ∈ u.functions, ∀ f, l.module.function? r.id = some f → ∀ i ∈ code f.blocks, ∀ slot,
        i.op = .store → i.slot = some slot → slot.isGlobal = true → r = u.entry) ∧
      (initial.prepare u l).module.function? u.entry.id = some f ∧
      ∀ ps q, ((initial.prepare u l).machine false).Visits ((initial.prepare u l).opening f) ps q →
        (∀ g args d w next,
          ((initial.prepare u l).machine false).advance q = .call g args d w next → ∀ qs x,
          ((initial.prepare u l).machine false).Visits (.call g args d w) qs x →
            x.world.globals = w.globals) ∧
        ∀ g r xs d w, q = .call g [.function (some r), .collection xs] d w → g.native = true →
          g.name = "map" →
          (∀ x ∈ xs, ∀ f w', (initial.prepare u l).module.function? r.id = some f →
            w'.bare = w.bare →
            ((initial.prepare u l).machine false).Silent f [.number x] (d + 1) w') →
          ∀ fuel v w', ((initial.prepare u l).machine false).invoke (fuel + 1) g
              [.function (some r), .collection xs] d w = .ok v w' →
            ∃ results, OrderFree ((initial.prepare u l).machine false) fuel d r xs w results ∧
              v = .collection (results.map Value.toNumber) := by
  intro p
  have hp : Program.parse
      "x = do(read) func f(a) \x7b x = a \x7d func g(b) \x7b f(b) \x7d do(map, g, x)" =
        .ok p := by cbv
  obtain ⟨u, l, hl⟩ := Lowering.exists_of_isOk (s := initial.lowering) (p := p) (by decide +kernel)
  obtain ⟨hstores, f, hf, hpoints⟩ := reached_initial.functions_keep_globals false hp hl
  refine ⟨u, l, f, ⟨reached_initial, hp, hl⟩, hstores _ List.mem_cons_self, hf,
    fun ps q hv => ⟨?_, ?_⟩⟩
  · intro g args d w next ha qs x
    exact ((hpoints ps q hv).1 g args d w next ha).2.2 qs x
  · intro g r xs d w he hn hname hsilent fuel v w' hrun
    exact ((hpoints ps q hv).2 g r xs d w he hn hsilent fuel v w' hrun).1 hname

end Session

end RealScript
