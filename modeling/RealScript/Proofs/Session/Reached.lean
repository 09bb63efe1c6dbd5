import RealScript.Proofs.Session.Natives

/-! # What sessions come to

A session starts with nothing stored and runs programs one after the other. Its past tells which
globals were not assigned by the units that declare them because these stopped before, and which of
them a function that is missing from a global was read from.
-/

namespace RealScript

variable {ps : List Point} {q : Point}

/-- A run passes the points `ps` and stops at `q`: at a result, at a failure, or where it is when
fuel runs out. -/
def Machine.StopsBy (m : Machine) (p : Point) (ps : List Point) (q : Point) :
    EStateM.Result Fault World Value → Prop
  | .ok v w => q = .back v w ∧ m.Passes p ps q
  | .error .outOfFuel w => q.world = w ∧ m.Visits p ps q
  | .error e w => q = .fail e w ∧ m.Visits p ps q

namespace Machine.StopsBy

variable {m : Machine} {p : Point} {r : EStateM.Result Fault World Value}

theorem visits (h : m.StopsBy p ps q r) : m.Visits p ps q := by
  cases r with
  | ok v w => exact .level h.2
  | error e w =>
    cases e with
    | outOfFuel => exact h.2
    | _ => exact h.2

theorem world (h : m.StopsBy p ps q r) :
    (∀ v w, r = .ok v w → q.world = w) ∧ ∀ e w, r = .error e w → q.world = w := by
  cases r with
  | ok v w =>
    obtain ⟨rfl, -⟩ := h
    exact ⟨fun _ _ he => (EStateM.Result.ok.inj he).2, fun _ _ he => by cases he⟩
  | error e w =>
    refine ⟨fun _ _ he => (by cases he), fun e' w' he => ?_⟩
    obtain ⟨-, rfl⟩ := EStateM.Result.error.inj he
    cases e with
    | outOfFuel => exact h.1
    | _ =>
      obtain ⟨rfl, -⟩ := h
      rfl

theorem exists_of_stopsAt (h : m.StopsAt p r) : ∃ ps q, m.StopsBy p ps q r := by
  cases r with
  | ok v w =>
    obtain ⟨ps, h⟩ := h
    exact ⟨ps, _, rfl, h⟩
  | error e w =>
    cases e with
    | outOfFuel =>
      obtain ⟨ps, q, h, hw⟩ := h
      exact ⟨ps, q, hw, h⟩
    | _ =>
      obtain ⟨ps, h⟩ := h.visits fun h => by cases h
      exact ⟨ps, _, rfl, h⟩

end Machine.StopsBy

structure Past where
  /-- The globals whose unit stopped before it assigned them. -/
  unset : Nat → Prop
  /-- The function that is missing from the first global was read from the second. -/
  origin : Nat → Nat → Prop

namespace Past

def blank : Past := ⟨fun _ => False, fun _ _ => False⟩

/-- A unit that passes the points `ps` stops before it assigns a global of those from `n` to `n'`,
which it declares. -/
def Stops (n n' : Nat) (entry : FuncRef) (ps : List Point) (k : Nat) : Prop :=
  n ≤ k ∧ k < n' ∧ ∀ x ∈ ps, ¬ x.Stores k ∧ ¬ x.Ends entry

/-- The function that is missing from a place behind the points `ps` was read from the global `k`:
it was moved from place to place, and what was stored to a global was not replaced since. -/
inductive Comes (past : Past) (k : Nat) : List Point → Fact → Prop where
  | kept {ps : List Point} {j : Nat} : past.origin j k → (∀ x ∈ ps, ¬ x.Stores j) →
      Comes past k ps (.stored .module j)
  | moved {pre post : List Point} {x : Point} {ψ φ : Fact} : Comes past k pre ψ → x.Moves ψ φ →
      (∀ j, φ = .stored .module j → ∀ y ∈ post, ¬ y.Stores j) → Comes past k (pre ++ x :: post) φ

/-- The past behind a unit that declares the globals from `n` to `n'` and passes the points `ps`. -/
def after (past : Past) (n n' : Nat) (entry : FuncRef) (ps : List Point) : Past where
  unset k := past.unset k ∨ Stops n n' entry ps k
  origin j k := past.Comes k ps (.stored .module j) ∨ j = k ∧ Stops n n' entry ps k

theorem Comes.unset {past : Past} {k : Nat} {φ : Fact} (h : past.Comes k ps φ)
    (hp : ∀ j k, past.origin j k → past.unset k) : past.unset k := by
  induction h with
  | kept ho _ => exact hp _ _ ho
  | moved _ _ _ ih => exact ih

end Past

namespace Session

def prepare (s : Session) (u : CodeUnit) (l : Lowering) : Session :=
  let s := { s with lowering := l }
  let s := if s.settings.optimize then u.functions.foldl optimize s else s
  if s.settings.dump then u.functions.foldl dump s else s

def opening (s : Session) (f : Function) : Point :=
  .call f [] 0 { s.world.resizeGlobals s.module.globals.length with clock := 0 }

/-- Sessions, each with its past. What goes on outside of units may change all but the code and the
globals. -/
inductive Reached : Session → Past → Prop where
  | start {settings : Settings} {sink : LogSink} {color : Bool} {world : World} {s : Session} :
      world.globals = #[] → start settings sink color world = .ok s → Reached s .blank
  | outside {s s' : Session} {past : Past} : Reached s past → s'.lowering = s.lowering →
      s'.world.globals = s.world.globals → Reached s' past
  | rejected {s : Session} {past : Past} (cancelled : Bool) {src : String} {p : Program}
      {e : LowerFailure} {l : Lowering} : Reached s past → Program.parse src = .ok p →
      s.lowering.lower p = (.error e, l) → Reached (s.execute cancelled p).2 past
  | refused {s : Session} {past : Past} (cancelled : Bool) {src : String} {p : Program}
    {u : CodeUnit}
      {l : Lowering} {f : Function} {e : CodeError} : Reached s past → Program.parse src = .ok p →
      s.lowering.lower p = (.ok u, l) → (s.prepare u l).module.function? u.entry.id = some f →
      Machine.checkEntry f = .error e → Reached (s.execute cancelled p).2 past
  | executed {s : Session} {past : Past} (cancelled : Bool) {src : String} {p : Program}
    {u : CodeUnit} {l : Lowering} {f : Function} {ps : List Point} {q : Point} : Reached s past →
      Program.parse src = .ok p → s.lowering.lower p = (.ok u, l) →
      (s.prepare u l).module.function? u.entry.id = some f → Machine.checkEntry f = .ok () →
      ((s.prepare u l).machine cancelled).StopsBy ((s.prepare u l).opening f) ps q
        (((s.prepare u l).machine cancelled).run Machine.ample f [] 0
          ((s.prepare u l).opening f).world) →
      Reached (s.execute cancelled p).2
        (past.after s.module.globals.length l.module.globals.length u.entry ps)

variable {s : Session} {past : Past} {p : Program} {u : CodeUnit} {l : Lowering} {f : Function}

theorem globals_log (s : Session) (r : LogRecord) : (s.log r).world.globals = s.world.globals := by
  unfold log
  split
  · rfl
  · rfl
  · split <;> rfl

theorem execute_of_error {e : LowerFailure} (cancelled : Bool)
    (h : s.lowering.lower p = (.error e, l)) :
    (s.execute cancelled p).2.lowering = l ∧
      (s.execute cancelled p).2.world.globals = s.world.globals := by
  simp only [execute, h, lowering_log, globals_log, and_self]

theorem execute_of_ok (cancelled : Bool) (h : s.lowering.lower p = (.ok u, l)) :
    s.execute cancelled p = (s.prepare u l).runUnit cancelled u := by
  simp only [execute, h, prepare]

theorem globals_optimize (s : Session) (f : FuncRef) :
    (s.optimize f).world.globals = s.world.globals := by
  unfold optimize
  split
  · rfl
  · exact globals_log _ _

theorem optimized_prepare (s : Session) (u : CodeUnit) (l : Lowering) :
    Lowering.Optimized u.functions l (s.prepare u l).lowering ∧
      (s.prepare u l).world.globals = s.world.globals := by
  have hdump : ∀ (fs : List FuncRef) (s : Session), (fs.foldl dump s).world.globals =
    s.world.globals := by
    intro fs
    induction fs with
    | nil => exact fun _ => rfl
    | cons f fs ih =>
      intro s
      rw [List.foldl_cons, ih, dump]
      split <;> rfl
  have hopt : ∀ (fs : List FuncRef) (s : Session), fs ⊆ u.functions →
      Lowering.Optimized u.functions s.lowering (fs.foldl optimize s).lowering ∧
        (fs.foldl optimize s).world.globals = s.world.globals := by
    intro fs
    induction fs with
    | nil => exact fun _ _ => ⟨.refl, rfl⟩
    | cons f fs ih =>
      intro s hsub
      obtain ⟨ho, hg⟩ := ih (s.optimize f) fun g hg => hsub (List.mem_cons_of_mem _ hg)
      refine ⟨.head ⟨f, hsub List.mem_cons_self, s.lowering_optimize f⟩ ho, ?_⟩
      rw [List.foldl_cons, hg, globals_optimize]
  unfold prepare
  dsimp only
  split
  · split
    · rw [lowering_foldl_dump, hdump]
      exact hopt _ { s with lowering := l } (List.Subset.refl _)
    · exact hopt _ { s with lowering := l } (List.Subset.refl _)
  · split
    · rw [lowering_foldl_dump, hdump]
      exact ⟨.refl, rfl⟩
    · exact ⟨.refl, rfl⟩

end Session

namespace Lowering.Optimized

variable {fs : List FuncRef} {l t : Lowering}

theorem globals (h : Optimized fs l t) : t.module.globals = l.module.globals := by
  induction h with
  | refl => rfl
  | tail _ hstep ih =>
    obtain ⟨f, -, rfl⟩ := hstep
    exact ih

theorem hosts (h : Optimized fs l t) : t.hosts = l.hosts := by
  induction h with
  | refl => rfl
  | tail _ hstep ih =>
    obtain ⟨f, -, rfl⟩ := hstep
    exact ih

theorem function (h : Optimized fs l t) {base : Module} {reach : Nat → Nat} (hb : base.Fresh)
    (hl : l.Lawful base reach) (k : Nat) (g : Function) (hg : l.module.function? k = some g) :
    ∃ g', t.module.function? k = some g' ∧ g'.ref = g.ref ∧ g'.native = g.native ∧
      (g.native = false → ∀ n n', g.EndsStored n n' → g'.EndsStored n n') := by
  induction h with
  | refl => exact ⟨g, hg, rfl, rfl, fun _ _ _ h => h⟩
  | @tail t u ho hstep ih =>
    obtain ⟨f, -, rfl⟩ := hstep
    obtain ⟨g', hg', href, hn, hends⟩ := ih
    rw [module_optimize, Module.function?_optimize, hg']
    refine ⟨_, rfl, ?_⟩
    dsimp only
    split
    · refine ⟨by simp [href], by simp [hn], fun hgn n n' he => ?_⟩
      exact (hends hgn n n' he).optimize ((hl.optimized hb ho).code k g' hg' (hn.trans hgn))
    · exact ⟨href, hn, hends⟩

end Lowering.Optimized

namespace Session

variable {s : Session} {past : Past} {p : Program} {u : CodeUnit} {l : Lowering} {f : Function}

structure Stands (s : Session) (past : Past) : Prop where
  hosts : s.lowering.hosts = Host.signatures
  lawful : ∃ reach, s.lowering.Lawful (Builtin.moduleNamed "do") reach
  size : s.world.globals.size ≤ s.module.globals.length
  typed : ∀ (k : Nat) (slot : Slot), s.module.globals[k]? = some slot →
    (s.world.globals.getD k .zero).HasType s.module.Offers slot.ty
  origin : ∀ (k : Nat) (slot : Slot) n, s.module.globals[k]? = some slot → slot.ty = .func n →
    (s.world.globals.getD k .zero).toFunction = none → ∃ j, past.origin k j
  unset : ∀ j k, past.origin j k → past.unset k

def setting (s : Session) (cancelled : Bool) (reach : Nat → Nat) (first : Nat)
    (excused : Fact → Prop) : Setting :=
  ⟨s.machine cancelled, reach, first, excused⟩

structure Opens (s t : Session) (u : CodeUnit) (f : Function) (reach : Nat → Nat) : Prop where
  hosts : t.lowering.hosts = Host.signatures
  lawful : t.lowering.Lawful (Builtin.moduleNamed "do") reach
  function : t.module.function? u.entry.id = some f
  ref : f.ref = u.entry
  entry : ∃ n, u.entry = ⟨u.entry.id, Lowering.unitName n, [], .real⟩
  code : f.native = false
  first : reach u.entry.id = s.module.globals.length
  ends : f.EndsStored s.module.globals.length t.module.globals.length
  globals : s.module.globals <+: t.module.globals
  world : t.world.globals = s.world.globals
  old : ∀ k g, s.module.function? k = some g → reach k ≤ s.module.globals.length ∧
    ∃ g', t.module.function? k = some g' ∧ g'.ref = g.ref

theorem getD_resizeGlobals (w : World) {n : Nat} (h : w.globals.size ≤ n) :
    (w.resizeGlobals n).globals.size = n ∧
      ∀ k, (w.resizeGlobals n).globals.getD k .zero = w.globals.getD k .zero := by
  unfold World.resizeGlobals
  split
  · rename_i hlt
    refine ⟨by simp; omega, fun k => ?_⟩
    simp only [Array.getD_eq_getD_getElem?, Array.getElem?_append]
    split
    · rfl
    · rename_i hk
      rw [(Array.getElem?_eq_none (Nat.not_lt.mp hk) : w.globals[k]? = none),
        Array.getElem?_replicate]
      split <;> rfl
  · have he : w.globals.size = n := by omega
    subst he
    simp

theorem Stands.opens (h : s.Stands past) {src : String} (hp : Program.parse src = .ok p)
    (hl : s.lowering.lower p = (.ok u, l)) : ∃ f reach, Opens s (s.prepare u l) u f reach := by
  obtain ⟨reach, hlaw⟩ := h.lawful
  have hbase := Builtin.fresh_moduleNamed "do"
  obtain ⟨hentry, reach', hlaw', ha⟩ := hlaw.lower (Program.shaped_of_parse hp) hl
  have htops := hlaw.settled.lower (Lowering.namedAll_of_parse hp)
  rw [hl] at htops
  obtain ⟨-, htops⟩ := htops
  obtain ⟨ho, hworld⟩ := s.optimized_prepare u l
  have hentryId : u.entry.id = s.module.store.size := by rw [hentry]; rfl
  obtain ⟨f, hf, hfref, hfn, hends⟩ := ha.unit
  obtain ⟨f', hf', href', hn', hends'⟩ := ho.function hbase hlaw' _ _ hf
  have hglobals : (s.prepare u l).module.globals = l.module.globals := ho.globals
  refine ⟨f', reach', ?_, hlaw'.optimized hbase ho, hentryId ▸ hf', ?_,
    ⟨s.lowering.nextUnit, by rw [hentry]⟩,
    hn'.trans hfn, hentryId ▸ ha.entry, ?_, ?_, hworld, fun k g hg => ?_⟩
  · have hhosts : l.hosts = s.lowering.hosts := htops.touched.hosts
    rw [ho.hosts, hhosts, h.hosts]
  · rw [href', hfref, hentry]
  · rw [hglobals]
    exact hends' hfn _ _ hends
  · rw [hglobals]
    exact htops.touched.globals
  · have hk := Lowering.lt_size_of_function? hg
    have hgl : l.module.function? k = some g := (htops.touched.old k hk).trans hg
    obtain ⟨g', hg', href, -⟩ := ho.function hbase hlaw' k g hgl
    exact ⟨ha.old k hk ▸ hlaw.within k g hg, g', hg', href⟩

variable {t : Session} {reach : Nat → Nat}

theorem Opens.sound (h : Opens s t u f reach) (cancelled : Bool) (first : Nat)
    (excused : Fact → Prop) : (t.setting cancelled reach first excused).Sound :=
  h.lawful.sound h.hosts rfl rfl first excused

theorem Opens.allows (h : Opens s t u f reach) (hs : s.Stands past) (cancelled : Bool)
    (excused : Fact → Prop) : (t.setting cancelled reach s.module.globals.length excused).Allows
      (f, (t.opening f).world) (t.opening f) := by
  have hid : f.id = u.entry.id := congrArg FuncRef.id h.ref
  obtain ⟨n, hentry⟩ := h.entry
  have hsize : t.world.globals.size ≤ t.module.globals.length := by
    rw [h.world]
    exact Nat.le_trans hs.size h.globals.length_le
  obtain ⟨hresized, hget⟩ := getD_resizeGlobals t.world hsize
  refine ⟨rfl, ?_, ?_, fun k hk hlt => ?_, hresized, fun k slot hslot => ?_⟩
  · rw [hid]
    exact h.function
  · rw [h.ref, hentry]
    exact .nil
  · change k < reach f.id at hlt
    rw [hid, h.first] at hlt
    exact absurd hlt (Nat.not_lt.mpr hk)
  · have hval : ((t.opening f).world.globals.getD k .zero) = s.world.globals.getD k .zero := by
      rw [← h.world]
      exact hget k
    change Setting.Holds _ _ ((t.opening f).world.globals.getD k .zero) slot.ty
    rw [hval]
    rcases Nat.lt_or_ge k s.module.globals.length with hk | hk
    · -- A global from before holds what it held, and a function in it is one from before.
      have hold : s.module.globals[k]? = some slot := by
        obtain ⟨more, he⟩ := h.globals
        have hslot : t.module.globals[k]? = some slot := hslot
        rw [← he, List.getElem?_append_left hk] at hslot
        exact hslot
      have htype := hs.typed k slot hold
      refine ⟨htype.mono fun j g hg => (h.old j g hg).2, fun r hr j hj hlt => ?_⟩
      rw [hr] at htype
      obtain ⟨⟨g, hg, -⟩, -⟩ := htype.offers
      exact absurd (Nat.lt_of_lt_of_le hlt (h.old r.id g hg).1) (Nat.not_lt.mpr hj)
    · have hzero : s.world.globals.getD k .zero = .zero := by
        rw [Array.getD_eq_getD_getElem?, Array.getElem?_eq_none (Nat.le_trans hs.size hk)]
        rfl
      rw [hzero]
      exact Setting.holds_zero _ _

theorem runEntry_eq (t : Session) (cancelled : Bool) (f : Function) :
    (t.machine cancelled).runEntry f t.world =
      match (t.machine cancelled).run Machine.ample f [] 0 (t.opening f).world with
      | .ok v w => .ok v.toNumber w
      | .error e w => .error e w := by
  simp only [Machine.runEntry, bind, EStateM.bind, modify, modifyGet, MonadStateOf.modifyGet,
    EStateM.modifyGet, pure, EStateM.pure, opening, Point.world, machine]
  generalize Machine.run _ _ _ _ _ _ = r
  cases r <;> rfl

theorem runUnit_of_run (cancelled : Bool) (hf : t.module.function? u.entry.id = some f)
    (hc : Machine.checkEntry f = .ok ()) :
    (t.runUnit cancelled u).2.lowering = t.lowering ∧
      (∀ v w, (t.machine cancelled).run Machine.ample f [] 0 (t.opening f).world = .ok v w →
        (t.runUnit cancelled u).1 = .ok v.toNumber ∧
          (t.runUnit cancelled u).2.world.globals = w.globals) ∧
      ∀ e w, (t.machine cancelled).run Machine.ample f [] 0 (t.opening f).world = .error e w →
        (t.runUnit cancelled u).1 = .error (.fault e) ∧
          (t.runUnit cancelled u).2.world.globals = w.globals := by
  have hentry := runEntry_eq t cancelled f
  generalize (t.machine cancelled).run Machine.ample f [] 0 (t.opening f).world = r at hentry ⊢
  cases r with
  | ok v w =>
    simp only [runUnit, hf, hc, hentry, lowering_log, globals_log, true_and,
      EStateM.Result.ok.injEq,
      reduceCtorEq, false_implies, implies_true, and_true]
    rintro _ _ ⟨rfl, rfl⟩
    exact ⟨rfl, rfl⟩
  | error e w =>
    simp only [runUnit, hf, hc, hentry, true_and, EStateM.Result.error.injEq, reduceCtorEq,
      false_implies, implies_true]
    rintro _ _ ⟨rfl, rfl⟩
    exact ⟨rfl, rfl⟩

theorem stands_start {settings : Settings} {sink : LogSink} {color : Bool} {world : World}
    (hw : world.globals = #[]) (h : start settings sink color world = .ok s) :
    s.Stands .blank := by
  have hbase := Builtin.fresh_moduleNamed "do"
  unfold start at h
  cases hv : settings.validate with
  | error e => rw [hv] at h; cases h
  | ok =>
    rw [hv] at h
    cases h
    have hglobals : (Lowering.ofModule (Builtin.moduleNamed "do") Host.signatures).module.globals =
      [] :=
      hbase.globals_eq
    refine ⟨?_, ⟨fun _ => 0, ?_⟩, ?_, ?_, ?_, fun _ _ h => h⟩ <;>
      simp only [module, lowering_log, globals_log, hglobals, hw]
    · rfl
    · exact Lowering.lawful_start hbase Host.signatures
    · exact Nat.le_refl 0
    · exact fun _ _ h => by cases h
    · exact fun _ _ _ h => by cases h

theorem Stands.restores (h : s.Stands past) {s' : Session} (hl : s'.lowering.Restores s.lowering)
    (hw : s'.world.globals = s.world.globals) : s'.Stands past := by
  obtain ⟨reach, hlaw⟩ := h.lawful
  have hmodule : s'.module = s.module := by
    unfold module
    rw [hl]
    rfl
  have hhosts : s'.lowering.hosts = s.lowering.hosts := by rw [hl]
  refine ⟨hhosts.trans h.hosts, ⟨reach, hlaw.restores hl⟩, ?_, ?_, ?_, h.unset⟩ <;> rw [hmodule, hw]
  · exact h.size
  · exact h.typed
  · exact h.origin

theorem Opens.visits (h : Opens s t u f reach) (hs : s.Stands past) (cancelled : Bool)
    (hv : (t.machine cancelled).Visits (t.opening f) ps q) (excused : Fact → Prop)
    (hb : ∀ x ∈ ps, ∀ ψ φ, x.Moves ψ φ → excused φ) :
    ∃ γ, (t.setting cancelled reach s.module.globals.length excused).Allows γ q := by
  refine (h.sound cancelled _ excused).contract.visits hv ?_ (h.allows hs cancelled excused)
  rintro x hx ⟨ψ, φ, hm, hn⟩
  exact hn (hb x hx ψ φ hm)

theorem Opens.lt_of_stores (h : Opens s t u f reach) (hs : s.Stands past) (cancelled : Bool)
    (hv : (t.machine cancelled).Visits (t.opening f) ps q) {x : Point} (hx : x ∈ ps)
    {e : Nat × Value}
    (he : x.stored? = some e) : e.1 < t.module.globals.length := by
  have S := h.sound cancelled s.module.globals.length fun _ => True
  obtain ⟨γ, hallows⟩ := S.contract.mem_visits hv (fun x _ => Setting.not_bad (fun _ => trivial) x)
    (h.allows hs cancelled _) hx
  cases x with
  | code act w =>
    have hruns : (t.setting cancelled reach s.module.globals.length fun _ => True).Runs γ act w :=
      hallows
    obtain ⟨i, rest, slot, hr, -, hslot, hg, hk⟩ := Activation.exists_of_storing he
    obtain ⟨-, ds, hstand, -⟩ := hruns.standing hr
    rcases ((hruns.lawful S).legal i hstand.mem_code).slot slot hslot with ⟨-, hk'⟩ | ⟨hh, -⟩
    · exact hk ▸ (List.getElem?_eq_some_iff.mp hk').1
    · simp [Slot.isGlobal, hh] at hg
  | _ => cases he

theorem Opens.getD_globals (h : Opens s t u f reach) (hs : s.Stands past) (cancelled : Bool)
    (hv : (t.machine cancelled).Visits (t.opening f) ps q) (k : Nat) :
    q.world.globals.getD k .zero = ((ps.filterMap Point.stored?).reverse.lookup k).getD
      (s.world.globals.getD k .zero) := by
  have hsize : t.world.globals.size ≤ t.module.globals.length := by
    rw [h.world]
    exact Nat.le_trans hs.size h.globals.length_le
  obtain ⟨hresized, hget⟩ := getD_resizeGlobals t.world hsize
  have hbound : ∀ e ∈ ps.filterMap Point.stored?, e.1 < (t.opening f).world.globals.size := by
    intro e hmem
    obtain ⟨x, hx, he⟩ := List.mem_filterMap.mp hmem
    exact Nat.lt_of_lt_of_eq (h.lt_of_stores hs cancelled hv hx he) hresized.symm
  rw [hv.globals, getD_foldl_put hbound, ← h.world]
  exact congrArg _ (hget k)

/-! ## Where missing functions come from -/

theorem Opens.comes_global (h : Opens s t u f reach) (hs : s.Stands past) (cancelled : Bool)
    (hv : (t.machine cancelled).Visits (t.opening f) ps q)
    (hc : ∀ pre x post, ps = pre ++ x :: post → ∀ ψ, x.Lacks ψ → ∃ k, past.Comes k pre ψ)
    {j n : Nat}
    {slot : Slot} (hslot : t.module.globals[j]? = some slot) (hty : slot.ty = .func n)
    (hnone : (q.world.globals.getD j .zero).toFunction = none) :
    (∃ k, past.Comes k ps (.stored .module j)) ∨
      s.module.globals.length ≤ j ∧ ∀ x ∈ ps, ¬ x.Stores j := by
  rw [h.getD_globals hs cancelled hv] at hnone
  rcases stores_cases ps j with ⟨hlook, hno⟩ | ⟨pre, x, post, v, rfl, hx, hpost, hlook⟩
  · rcases Nat.lt_or_ge j s.module.globals.length with hj | hj
    · have hold : s.module.globals[j]? = some slot := by
        obtain ⟨more, he⟩ := h.globals
        rw [← he, List.getElem?_append_left hj] at hslot
        exact hslot
      rw [hlook] at hnone
      obtain ⟨k, hk⟩ := hs.origin j slot n hold hty hnone
      exact .inl ⟨k, .kept hk hno⟩
    · exact .inr ⟨hj, hno⟩
  · rw [hlook] at hnone
    obtain ⟨γ, hallows⟩ := h.visits hs cancelled (hv.split rfl) (fun _ => True)
      fun _ _ _ _ _ => trivial
    obtain ⟨ψ, hm⟩ := (h.sound cancelled _ _).moves_of_stored hallows hx hslot hty hnone
    obtain ⟨k, hk⟩ := hc pre x post rfl ψ hm.lacks
    refine .inl ⟨k, .moved hk hm fun j' hj => ?_⟩
    cases hj
    exact hpost

theorem Opens.comes (h : Opens s t u f reach) (hs : s.Stands past) (cancelled : Bool)
    (hv : (t.machine cancelled).Visits (t.opening f) ps q) {φ : Fact} (hq : q.Lacks φ) :
    ∃ k, past.Comes k ps φ := by
  -- By induction on the number of points that were passed: what was moved came from before.
  induction hn : ps.length using Nat.strong_induction_on generalizing ps q φ with
  | _ n ih =>
    subst hn
    have hearlier : ∀ pre x post, ps = pre ++ x :: post → ∀ ψ, x.Lacks ψ →
        ∃ k, past.Comes k pre ψ := by
      rintro pre x post rfl ψ hψ
      exact ih pre.length (by simp) (hv.split rfl) hψ rfl
    have S := h.sound cancelled s.module.globals.length fun φ => ∃ x ∈ ps, ∃ ψ, x.Moves ψ φ
    obtain ⟨γ, hallows⟩ := h.visits hs cancelled hv
      (fun φ => ∃ x ∈ ps, ∃ ψ, x.Moves ψ φ) fun x hx ψ _ hm => ⟨x, hx, ψ, hm⟩
    rcases S.excused_of_lacks hallows hq with ⟨x, hx, ψ, hm⟩ | ⟨j, rfl, hj⟩
    · by_cases hglobal : ∃ j, φ = .stored .module j
      · obtain ⟨j, rfl⟩ := hglobal
        obtain ⟨slot, n, hslot, hty, hnone⟩ := S.global_of_lacks hallows hq
        rcases h.comes_global hs cancelled hv hearlier hslot hty hnone with hc | ⟨-, hno⟩
        · exact hc
        · obtain ⟨pre, post, rfl⟩ := List.append_of_mem hx
          obtain ⟨γ', hx'⟩ := h.visits hs cancelled (hv.split rfl) (fun _ => True)
            fun _ _ _ _ _ => trivial
          exact absurd ((h.sound cancelled _ _).stores_of_moves hx' hm) (hno x hx)
      · obtain ⟨pre, post, rfl⟩ := List.append_of_mem hx
        obtain ⟨k, hk⟩ := hearlier pre x post rfl ψ hm.lacks
        exact ⟨k, .moved hk hm fun j hj => absurd ⟨j, hj⟩ hglobal⟩
    · obtain ⟨slot, n, hslot, hty, hnone⟩ := S.global_of_lacks hallows hq
      rcases h.comes_global hs cancelled hv hearlier hslot hty hnone with hc | ⟨hge, -⟩
      · exact hc
      · exact absurd hj (Nat.not_lt.mpr hge)

theorem Opens.not_ends (h : Opens s t u f reach) (hs : s.Stands past) (cancelled : Bool)
    (hv : (t.machine cancelled).Visits (t.opening f) ps q) {k n : Nat} {slot : Slot}
    (hslot : t.module.globals[k]? = some slot) (hty : slot.ty = .func n)
    (hk : s.module.globals.length ≤ k) (hno : ∀ x ∈ ps, ¬ x.Stores k) {x : Point} (hx : x ∈ ps) :
    ¬ x.Ends u.entry := by
  intro he
  have hid : f.id = u.entry.id := congrArg FuncRef.id h.ref
  have hf : t.module.function? f.id = some f := by
    rw [hid]
    exact h.function
  obtain ⟨pre, post, rfl⟩ := List.append_of_mem hx
  have hpre : ∀ y ∈ pre, ¬ y.Stores k := fun y hy => hno y (List.mem_append_left _ hy)
  have hvx := hv.split rfl
  obtain ⟨γ, hallows⟩ := h.visits hs cancelled hvx
    (fun φ => ∃ y ∈ pre, ∃ ψ, y.Moves ψ φ) fun y hy ψ _ hm => ⟨y, hy, ψ, hm⟩
  rw [← h.ref] at he
  have hassigned := Setting.Sound.assigned_of_ends hallows hf he h.ends hk
    (List.getElem?_eq_some_iff.mp hslot).1
  have hnone : (x.world.globals.getD k .zero).toFunction = none := by
    rw [h.getD_globals hs cancelled hvx]
    rcases stores_cases pre k with ⟨hlook, -⟩ | ⟨_, y, _, v, rfl, hy, -⟩
    · rw [hlook, Array.getD_eq_getD_getElem?, Array.getElem?_eq_none (Nat.le_trans hs.size hk)]
      rfl
    · exact absurd ⟨v, hy⟩ (hpre y (by simp))
  obtain ⟨y, hy, ψ, hm⟩ := hassigned slot n hslot hty hnone
  obtain ⟨as, bs, rfl⟩ := List.append_of_mem hy
  obtain ⟨γ', hy'⟩ := h.visits hs cancelled (hvx.split rfl) (fun _ => True) fun _ _ _ _ _ => trivial
  exact hpre y hy ((h.sound cancelled _ _).stores_of_moves hy' hm)

theorem execute_of_stops (cancelled : Bool) (hl : s.lowering.lower p = (.ok u, l))
    (hf : (s.prepare u l).module.function? u.entry.id = some f) (hc : Machine.checkEntry f = .ok ())
    (hstop : ((s.prepare u l).machine cancelled).StopsBy ((s.prepare u l).opening f) ps q
      (((s.prepare u l).machine cancelled).run Machine.ample f [] 0
      ((s.prepare u l).opening f).world)) :
    (s.execute cancelled p).2.lowering = (s.prepare u l).lowering ∧
      (s.execute cancelled p).2.world.globals = q.world.globals := by
  rw [execute_of_ok cancelled hl]
  obtain ⟨hlow, hok, herror⟩ := runUnit_of_run cancelled hf hc
  refine ⟨hlow, ?_⟩
  obtain ⟨hokw, herrorw⟩ := hstop.world
  generalize ((s.prepare u l).machine cancelled).run Machine.ample f [] 0
    ((s.prepare u l).opening f).world = r at hok herror hokw herrorw
  cases r with
  | ok v w => rw [(hok v w rfl).2, hokw v w rfl]
  | error e w => rw [(herror e w rfl).2, herrorw e w rfl]

theorem Stands.executed (h : s.Stands past) (cancelled : Bool) {src : String}
    (hp : Program.parse src = .ok p) (hl : s.lowering.lower p = (.ok u, l))
    (hf : (s.prepare u l).module.function? u.entry.id = some f) (hc : Machine.checkEntry f = .ok ())
    {ps : List Point} {q : Point}
    (hstop : ((s.prepare u l).machine cancelled).StopsBy ((s.prepare u l).opening f) ps q
      (((s.prepare u l).machine cancelled).run Machine.ample f [] 0
      ((s.prepare u l).opening f).world)) :
    (s.execute cancelled p).2.Stands
      (past.after s.module.globals.length l.module.globals.length u.entry ps) := by
  obtain ⟨f', reach, ho⟩ := h.opens hp hl
  cases hf.symm.trans ho.function
  have hv := hstop.visits
  have hlength : l.module.globals.length = (s.prepare u l).module.globals.length := by
    rw [← (s.optimized_prepare u l).1.globals]
    rfl
  -- The session behind the run has its code and the globals of the point where it stopped.
  obtain ⟨hlow, hworld⟩ := execute_of_stops cancelled hl hf hc hstop
  have hmodule : (s.execute cancelled p).2.module = (s.prepare u l).module :=
    congrArg Lowering.module hlow
  obtain ⟨γ, hq⟩ := ho.visits h cancelled hv (fun _ => True) fun _ _ _ _ _ => trivial
  have hglobals := hq.globals
  refine ⟨by rw [hlow]; exact ho.hosts, ⟨reach, by rw [hlow]; exact ho.lawful⟩, ?_, ?_, ?_, ?_⟩
  · rw [hmodule, hworld]
    exact Nat.le_of_eq hglobals.size
  · rw [hmodule, hworld]
    exact fun k slot hslot => (hglobals.holds k slot hslot).type
  · rw [hmodule, hworld]
    intro k slot n hslot hty hnone
    rcases ho.comes_global h cancelled hv (fun pre x post he ψ => ho.comes h cancelled
      (hv.split he))
      hslot hty hnone with ⟨j, hj⟩ | ⟨hk, hno⟩
    · exact ⟨j, .inl hj⟩
    · refine ⟨k, .inr ⟨rfl, hk, hlength ▸ (List.getElem?_eq_some_iff.mp hslot).1, fun x hx => ?_⟩⟩
      exact ⟨hno x hx, ho.not_ends h cancelled hv hslot hty hk hno hx⟩
  · rintro j k (hc | ⟨-, hstops⟩)
    · exact .inl (hc.unset h.unset)
    · exact .inr hstops

theorem Reached.stands (h : s.Reached past) : s.Stands past := by
  induction h with
  | start hw h => exact stands_start hw h
  | outside _ hl hw ih => exact ih.restores (by rw [hl]; exact .refl _) hw
  | @rejected s past cancelled src p e l _ hp hl ih =>
    obtain ⟨hlow, hw⟩ := execute_of_error cancelled hl
    obtain ⟨reach, hlaw⟩ := ih.lawful
    have hrest := hlaw.settled.lower (Lowering.namedAll_of_parse hp)
    rw [hl] at hrest
    exact ih.restores (hlow ▸ hrest) hw
  | @refused s past cancelled src p u l f e _ hp hl hf hc ih =>
    obtain ⟨reach, hlaw⟩ := ih.lawful
    have htops := hlaw.settled.lower (Lowering.namedAll_of_parse hp)
    rw [hl] at htops
    have ho := s.optimized_prepare u l
    have hrun : (s.execute cancelled p).2 =
        { s.prepare u l with lowering := (s.prepare u l).lowering.rollback u } := by
      rw [execute_of_ok cancelled hl]
      simp only [runUnit, hf, hc]
    rw [hrun]
    exact ih.restores ((htops.2.optimized ho.1).rollback hlaw.settled) ho.2
  | executed cancelled _ hp hl hf hc hstop ih => exact ih.executed cancelled hp hl hf hc hstop

end Session

end RealScript
