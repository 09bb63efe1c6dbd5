import RealScript.Proofs.Session.Reached
import RealScript.Proofs.Session.WellFormed

/-! # Sessions are type sound

Whatever programs a session runs, and however they end, all values that it holds have the types of
the storage that holds them. So nothing is ever looked for that is not there. A function that is
missing was read from a global whose unit stopped before it assigned it.
-/

namespace RealScript

structure Point.Typed (m : Module) (p : Point) : Prop where
  globals : ∀ (k : Nat) (slot : Slot), m.globals[k]? = some slot →
    (p.world.globals.getD k .zero).HasType m.Offers slot.ty
  call : ∀ f args d w, p = .call f args d w → List.Forall₂
    (Value.HasType m.Offers) args f.ref.params
  code : ∀ act w, p = .code act w → act.frame.Fits m.Offers act.function
  native : ∀ f d a w, p = .native f d a w → a.Keeps m.Offers f.ref.ret

/-- An operand that should be a function is one, or it is a result that lacks one. -/
def Point.Whole (p : Point) : Prop :=
  ∀ act w i rest, p = .code act w → act.rest = i :: rest → ∀ x ∈ i.args, ∀ n, x.ty = .func n →
    (∃ r, act.frame.operand? x = some (.function (some r))) ∨ ∃ r, x = .result r ∧
      p.Lacks (.result r)

namespace Setting

variable {E : Setting} {γ : Function × World} {globals : Array Value} {v : Value}
  {ty : Ty} {p : Point}

theorem holds_iff (hs : ∀ φ, E.excused φ) : E.Holds globals v ty ↔ v.HasType E.module.Offers ty :=
  ⟨fun h => h.type, fun h => ⟨h, fun _ _ _ _ _ _ _ _ _ _ => hs _⟩⟩

theorem forall₂_holds_iff (hs : ∀ φ, E.excused φ) {vs : List Value} {tys : List Ty} :
    List.Forall₂ (E.Holds globals) vs tys ↔ List.Forall₂
    (Value.HasType E.module.Offers) vs tys := by
  constructor <;> exact fun h => h.imp fun _ _ hv => by simpa only [holds_iff hs] using hv

theorem Honest.keeps (hs : ∀ φ, E.excused φ) {a : Action} (h : E.Honest globals ty a) :
    a.Keeps E.module.Offers ty := by
  induction a with
  | done v => exact (holds_iff hs).mp h
  | fail | raise => trivial
  | attempt r args next ih =>
    cases r with
    | none => exact fun e => (show next (.error e) = _ from h e) ▸ trivial
    | some r =>
      obtain ⟨ho, -, hargs, hnext, hfail⟩ := h
      exact ⟨ho, (forall₂_holds_iff hs).mp hargs,
        fun v hv => ih (.ok v) (hnext v ((holds_iff hs).mpr hv)), fun e => hfail e ▸ trivial⟩
  | proceed _ ih | enterPool _ ih | write _ _ ih | leave _ _ ih => exact ih h
  | read next ih => exact fun words => ih words (h words)

theorem Allows.typed (hs : ∀ φ, E.excused φ) (h : E.Allows γ p) : p.Typed E.module where
  globals k slot hk := (h.globals.holds k slot hk).type
  call f args d w hp := by
    subst hp
    exact (forall₂_holds_iff hs).mp h.2.2.1
  code act w hp := by
    subst hp
    have hruns : E.Runs γ act w := h
    obtain ⟨ds, -, hfills⟩ := hruns.frame
    rw [hruns.function]
    exact ⟨(forall₂_holds_iff hs).mp hfills.args, hfills.registers,
      fun i hi => (hfills.results i hi).type,
      hfills.slots, fun k slot hk => (hfills.held k slot hk).type⟩
  native f d a w hp := by
    subst hp
    exact h.2.1.keeps hs

theorem Allows.whole (S : E.Sound) (h : E.Allows γ p) : p.Whole := by
  rintro act w i rest rfl hr x hx n hty
  have hruns : E.Runs γ act w := h
  obtain ⟨-, ds, hs, hfills⟩ := hruns.standing hr
  obtain ⟨v, hv, hgives⟩ := hfills.operand S.toLawful (hruns.lawful S)
    (S.params _ _ hruns.member hruns.code) hruns.ready hs hx
  rcases (hty ▸ hgives.toHolds : E.Holds _ v (.func n)).function with hnone | ⟨r, rfl, -⟩
  · -- Only a result can lack a function: constants are there, and no parameter is a function.
    cases x with
    | result r =>
      obtain rfl : act.frame.result r = v := Option.some.inj hv
      exact .inr ⟨r, rfl, act, w, i, rest, rfl, hr, .operand hx hty hnone⟩
    | param k index name ty =>
      obtain rfl : ty = .func n := hty
      have hparam := ((hruns.lawful S).legal i hs.mem_code).params k index name _ hx
      exact absurd (List.mem_of_getElem? hparam) (S.params _ _ hruns.member hruns.code n)
    | func r => exact .inl ⟨r, rfl⟩
    | real | truth => cases hty
    | hole => cases hv
  · exact .inl ⟨r, hv⟩

structure Solid (E : Setting) : Prop where
  globals : ∀ slot ∈ E.module.globals, slot.ty ≠ .void
  slots : ∀ k f, E.module.function? k = some f → ∀ slot ∈ f.slots, slot.ty ≠ .void
  params : ∀ r, E.module.Offers r → ∀ ty ∈ r.params, ty ≠ .void

theorem Runs.serves (S : E.Sound) (hE : E.Solid) {act : Activation} {w : World} (h : E.Runs γ act w)
    {i : Instr} {rest : List Instr} (hr : act.rest = i :: rest) : act.frame.Serves w.globals i := by
  obtain ⟨hn, ds, hs, hfills⟩ := h.standing hr
  have hl := h.lawful S
  have hlegal := hl.legal i hs.mem_code
  refine Frame.serves (hl.sound.fits i hs.mem_code) (hl.typed i hs.mem_code)
    (fun s hs => ⟨hlegal.slot s hs, ?_⟩) hlegal.params
    (fun c hc => hE.params c (hlegal.refs c (List.mem_append_left _ (by simp [hc]))))
      (fun r hx hnv => ?_)
    hfills.args.length_eq hfills.registers hfills.slots h.globals.size
  · rcases hlegal.slot s hs with ⟨-, hk⟩ | ⟨-, hk⟩
    · exact hE.globals s (List.mem_of_getElem? hk)
    · exact hE.slots _ _ h.member s (List.mem_of_getElem? hk)
  · have hne : r.register ≠ none := fun he => hnv (hl.results i hs.mem_code r hx he)
    obtain ⟨k, hk⟩ := Option.ne_none_iff_exists'.mp hne
    obtain ⟨j, hj, rfl⟩ := hs.mem_results
      (hs.defined hl.sound (List.mem_filterMap.mpr ⟨.result r, hx, rfl⟩) hne)
    exact ⟨k, hk, (hl.sound.fits j hj).register k hk⟩

theorem Allows.safe (S : E.Sound) (hE : E.Solid) (h : E.Allows γ p) : p.Safe := by
  cases p with
  | call f args d w =>
    obtain ⟨-, hf, hargs, -⟩ := h
    exact fun hn => ⟨(S.code f.id f hf hn).sound.nonempty, hargs.length_eq⟩
  | code act w =>
    have hruns : E.Runs γ act w := h
    simp only [Point.Safe]
    cases hr : act.rest with
    | cons i rest => exact hruns.serves S hE hr
    | nil =>
      change ∃ b ∈ act.function.blocks, act.next = some b.ref
      obtain ⟨ds, hs, -⟩ := hruns.frame
      rw [hr] at hs
      cases hn : act.next with
      | none => rw [hn] at hs; cases hs
      | some r =>
        rw [hn] at hs
        obtain ⟨b, rfl, hb, -⟩ := hs.enter (hruns.lawful S).sound
        exact ⟨b, hruns.function ▸ hb.mem, rfl⟩
  | native | back => trivial
  | fail e w =>
    rintro rfl
    exact h.1

end Setting

theorem Lowering.Reachable.optimized {s t : Lowering} {fs : List FuncRef} (h : s.Reachable)
    (ho : Lowering.Optimized fs s t) : t.Reachable := by
  induction ho with
  | refl => exact h
  | tail _ hstep ih =>
    obtain ⟨f, -, rfl⟩ := hstep
    exact .optimize _ ih

theorem Lowering.Optimized.detour {s t : Lowering} {fs : List FuncRef}
    (ho : Lowering.Optimized fs s t) :
    Lowering.Detour fs s t := by
  induction ho with
  | refl => exact .none
  | tail _ hstep ih =>
    obtain ⟨f, hf, rfl⟩ := hstep
    exact .optimize ih hf

namespace Session

variable {s : Session} {past : Past} {p : Program} {u : CodeUnit} {l : Lowering} {f : Function}

theorem Reached.reachable (h : s.Reached past) : s.lowering.Reachable := by
  induction h with
  | @start settings sink color world s _ h =>
    unfold Session.start at h
    cases hv : settings.validate with
    | error e => rw [hv] at h; cases h
    | ok =>
      rw [hv] at h
      cases h
      rw [lowering_log]
      exact .start Host.signatures (Builtin.fresh_moduleNamed "do")
  | outside _ hl _ ih => exact hl ▸ ih
  | rejected cancelled _ hp hl ih =>
    have := ih.unit hp
    rw [hl] at this
    exact (execute_of_error cancelled hl).1 ▸ this
  | @refused s past cancelled src p u l f e _ hp hl hf hc ih =>
    have hrun : (s.execute cancelled p).2.lowering = (s.prepare u l).lowering.rollback u := by
      rw [execute_of_ok cancelled hl]
      simp only [runUnit, hf, hc]
    rw [hrun]
    exact ih.detour (.undone .none hp hl (s.optimized_prepare u l).1.detour)
  | @executed s past cancelled src p u l f ps q _ hp hl hf hc _ ih =>
    have := ih.unit hp
    rw [hl] at this
    rw [execute_of_ok cancelled hl, (runUnit_of_run cancelled hf hc).1]
    exact this.optimized (s.optimized_prepare u l).1

theorem ne_void_of_mem_params {b : Builtin} (hb : b ∈ Builtin.table) {ty : Ty}
    (hty : ty ∈ b.params) :
    ty ≠ .void := by
  simp only [Builtin.table, List.mem_cons, List.not_mem_nil, or_false] at hb
  rcases hb with rfl | rfl | rfl | rfl | rfl | rfl <;> revert ty <;> simp

theorem ne_void_of_offers {reach : Nat → Nat} {l : Lowering}
    (h : l.Lawful (Builtin.moduleNamed "do") reach) {r : FuncRef} (hr : l.module.Offers r) {ty : Ty}
    (hty : ty ∈ r.params) : ty ≠ .void := by
  obtain ⟨⟨g, hg, rfl⟩, hname⟩ := hr
  cases h.origin _ g hg with
  | base hb =>
    obtain ⟨b, hb, -, hparams, -⟩ := Builtin.function_of_moduleNamed hb
    exact ne_void_of_mem_params hb (hparams ▸ hty)
  | written hw _ =>
    rw [hw.params ty hty]
    exact nofun
  | @entry n hr _ => exact absurd (by rw [hr]) (hname n)

theorem ne_void_of_mem_globals {reach : Nat → Nat} {l : Lowering}
    (h : l.Lawful (Builtin.moduleNamed "do") reach) (hr : l.Reachable) {slot : Slot}
    (hslot : slot ∈ l.module.globals) : slot.ty ≠ .void := by
  rw [← h.bound.globals] at hslot
  obtain ⟨x, hx, rfl⟩ := List.mem_map.mp hslot
  exact (hr.sober.housed.globals x hx).2

theorem Opens.solid {t : Session} {reach : Nat → Nat} (h : Opens s t u f reach)
    (ht : t.lowering.Reachable) (cancelled : Bool) (first : Nat) (excused : Fact → Prop) :
    (t.setting cancelled reach first excused).Solid where
  globals _ hslot := ne_void_of_mem_globals h.lawful ht hslot
  slots k g hg := (ht.sober.function k g hg).2
  params _ hr _ hty := ne_void_of_offers h.lawful hr hty

theorem Reached.execute (h : s.Reached past) (cancelled : Bool) {src : String}
    (hp : Program.parse src = .ok p) : ∃ past', (s.execute cancelled p).2.Reached past' := by
  rcases hl : s.lowering.lower p with ⟨_ | u, l⟩
  · exact ⟨past, h.rejected cancelled hp hl⟩
  · obtain ⟨f, reach, ho⟩ := h.stands.opens hp hl
    cases hc : Machine.checkEntry f with
    | error e => exact ⟨past, h.refused cancelled hp hl ho.function hc⟩
    | ok =>
      obtain ⟨ps, q, hstop⟩ := Machine.StopsBy.exists_of_stopsAt
        (((Machine.stopsAt_fuel Machine.ample).1 f [] 0 ((s.prepare u l).opening f).world ho.code :
          ((s.prepare u l).machine cancelled).StopsAt _ _))
      exact ⟨_, h.executed cancelled hp hl ho.function hc hstop⟩

theorem Reached.expected (h : s.Reached past) (cancelled : Bool) {src : String}
    (hp : Program.parse src = .ok p) {e : Fault}
    (he : (s.execute cancelled p).1 = .error (.fault e)) :
    e.Expected := by
  rcases hl : s.lowering.lower p with ⟨failure | u, l⟩
  · simp only [Session.execute, hl] at he
    cases failure <;> cases he
  · obtain ⟨f, reach, ho⟩ := h.stands.opens hp hl
    rw [execute_of_ok cancelled hl] at he
    cases hc : Machine.checkEntry f with
    | error e' =>
      simp only [runUnit, ho.function, hc] at he
      cases he
    | ok =>
      obtain ⟨-, hok, herror⟩ := runUnit_of_run cancelled ho.function hc
      have hstop := (Machine.stopsAt_fuel (m := (s.prepare u l).machine cancelled) Machine.ample).1
        f [] 0
        ((s.prepare u l).opening f).world ho.code
      generalize ((s.prepare u l).machine cancelled).run Machine.ample f [] 0
        ((s.prepare u l).opening f).world = r at hok herror hstop
      cases r with
      | ok v w =>
        rw [(hok v w rfl).1] at he
        cases he
      | error e' w =>
        rw [(herror e' w rfl).1] at he
        obtain rfl : e' = e := by simpa using he
        cases e' with
        | outOfFuel => trivial
        | _ =>
          obtain ⟨ps, hv⟩ := hstop.visits fun h => by cases h
          obtain ⟨γ, hq⟩ := ho.visits h.stands cancelled hv (fun _ => True) fun _ _ _ _ _ => trivial
          exact hq.1

/-- Sessions are type sound. Whatever they have run, their globals have their types, and running one
more program gives a session of the same kind. All points of its run hold values of the right types,
look only for what is there, and fail only as every run can. Whenever a function is missing, from a
global of the session or from what an instruction takes, it was read from a global whose unit
stopped before it assigned it. -/
theorem Reached.type_sound (h : s.Reached past) (cancelled : Bool) {src : String}
    (hp : Program.parse src = .ok p) :
    (∀ (k : Nat) (slot : Slot), s.module.globals[k]? = some slot →
      (s.world.globals.getD k .zero).HasType s.module.Offers slot.ty ∧
      ∀ n, slot.ty = .func n → (s.world.globals.getD k .zero).toFunction = none →
        ∃ j, past.origin k j ∧ past.unset j) ∧
    (∃ past', (s.execute cancelled p).2.Reached past') ∧
    (∀ e, (s.execute cancelled p).1 = .error (.fault e) → e.Expected) ∧
    ∀ u l, s.lowering.lower p = (.ok u, l) →
      ∃ f, (s.prepare u l).module.function? u.entry.id = some f ∧
        ∀ ps q, ((s.prepare u l).machine cancelled).Visits ((s.prepare u l).opening f) ps q →
          q.Typed (s.prepare u l).module ∧ q.Safe ∧ (∀ e w, q = .fail e w → e.Expected) ∧
          q.Whole ∧ ∀ φ, q.Lacks φ → ∃ k, past.Comes k ps φ ∧ past.unset k := by
  refine ⟨fun k slot hslot => ⟨h.stands.typed k slot hslot, fun n hty hnone => ?_⟩,
    h.execute cancelled hp, fun e => h.expected cancelled hp, fun u l hl => ?_⟩
  · obtain ⟨j, hj⟩ := h.stands.origin k slot n hslot hty hnone
    exact ⟨j, hj, h.stands.unset k j hj⟩
  obtain ⟨f, reach, ho⟩ := h.stands.opens hp hl
  refine ⟨f, ho.function, fun ps q hv => ?_⟩
  have hreach : (s.prepare u l).lowering.Reachable := by
    have := h.reachable.unit hp
    rw [hl] at this
    exact this.optimized (s.optimized_prepare u l).1
  obtain ⟨γ, hq⟩ := ho.visits h.stands cancelled hv (fun _ => True) fun _ _ _ _ _ => trivial
  have S := ho.sound cancelled s.module.globals.length fun _ => True
  refine ⟨hq.typed fun _ => trivial, hq.safe S (ho.solid hreach cancelled _ _), fun e w he => ?_,
    hq.whole S, fun φ hφ => ?_⟩
  · subst he
    exact hq.1
  · obtain ⟨k, hk⟩ := ho.comes h.stands cancelled hv hφ
    exact ⟨k, hk, hk.unset h.stands.unset⟩

def initial : Session := ⟨{}, .nowhere, false, .ofModule (Builtin.moduleNamed "do") Host.signatures,
    { pool := Pool.ofWorkers 1 }⟩

theorem start_initial : start {} .nowhere false {} = .ok initial := by
  unfold start
  rw [show Settings.validate {} = .ok () by cbv]
  rfl

theorem reached_initial : initial.Reached .blank := .start rfl start_initial

theorem type_sound_map :
    let p : Program := [.binary ⟨1, 3⟩ "=" (.ident ⟨1, 1⟩ "g")
        (.funcLit ⟨1, 5⟩ ["a"] [.ident ⟨1, 15⟩ "a"]),
      .call ⟨1, 19⟩ true "write" [.call ⟨1, 29⟩ true "map"
        [.ident ⟨1, 37⟩ "g", .call ⟨1, 40⟩ true "read" []]]]
    (initial.Reached .blank ∧
      Program.parse "g = func(a) \x7b a \x7d do(write, do(map, g, do(read)))" = .ok p) ∧
    (∀ e, (initial.execute false p).1 = .error (.fault e) → e.Expected) ∧
    ∀ u l, initial.lowering.lower p = (.ok u, l) →
      ∃ f, (initial.prepare u l).module.function? u.entry.id = some f ∧
        ∀ ps q, ((initial.prepare u l).machine false).Visits
          ((initial.prepare u l).opening f) ps q →
          q.Typed (initial.prepare u l).module ∧ q.Safe ∧ (∀ e w, q = .fail e w → e.Expected) ∧
          q.Whole ∧ ∀ φ, ¬ q.Lacks φ := by
  intro p
  have hp : Program.parse "g = func(a) \x7b a \x7d do(write, do(map, g, do(read)))" =
    .ok p := by cbv
  obtain ⟨-, -, hexpected, hsound⟩ := reached_initial.type_sound false hp
  refine ⟨⟨reached_initial, hp⟩, hexpected, fun u l hl => ?_⟩
  obtain ⟨f, hf, hpoints⟩ := hsound u l hl
  refine ⟨f, hf, fun ps q hv => ?_⟩
  obtain ⟨htyped, hsafe, hfail, hwhole, horigin⟩ := hpoints ps q hv
  refine ⟨htyped, hsafe, hfail, hwhole, fun φ hφ => ?_⟩
  obtain ⟨k, -, hk⟩ := horigin φ hφ
  exact hk

end Session

end RealScript
