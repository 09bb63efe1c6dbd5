import RealScript.Proofs.Machine.Stores
import RealScript.Proofs.Session.Frame
import RealScript.Proofs.Session.UnitCode

/-! # Globals over a session

A unit that was lowered is never refused, optimised or not, so its globals are there for the rest of
the session. Only entries of units store to them. So a global always has the value that an entry
stored to it last, and no value of a global that was discarded comes back under its number.
-/

namespace RealScript

namespace Session

variable {s t : Session} {past : Past} {src : String} {p : Program} {u : CodeUnit} {l : Lowering}
  {f : Function} {reach : Nat → Nat}

theorem Reached.checkEntry (h : s.Reached past) (hp : Program.parse src = .ok p)
    (hl : s.lowering.lower p = (.ok u, l))
    (hf : (s.prepare u l).module.function? u.entry.id = some f) :
    Machine.checkEntry f = .ok () := by
  obtain ⟨hopt, -⟩ := s.optimized_prepare u l
  obtain ⟨f', hf', -, hcheck⟩ := h.reachable.checkEntry hp hl hopt
  cases hf.symm.trans hf'
  exact hcheck

end Session

def Point.storedBy? (entry : FuncRef) : Point → Option (Nat × Value)
  | .code act _ => if act.function.ref = entry then act.storing? else none
  | _ => none

theorem Setting.Sound.entries {E : Setting} (S : E.Sound) (f : Function) :
    E.machine.Contract E.Bad fun γ p =>
      E.Allows γ p ∧ (γ.1 = f ∨ ∀ n, γ.1.name ≠ Lowering.unitName n) where
  go γ p p' hp hb ha := ⟨S.contract.go γ p p' hp.1 hb ha, hp.2⟩
  call γ p g args d w next hp hb ha := by
    obtain ⟨γ', hcall, hback⟩ := S.contract.call γ p g args d w next hp.1 hb ha
    refine ⟨γ', ⟨hcall, .inr ?_⟩, fun q x hx hq => ⟨hback q x hx hq.1, hp.2⟩⟩
    rw [hcall.1]
    exact S.name_of_call hp.1 hb ha

namespace Session

variable {s t : Session} {past : Past} {src : String} {p : Program} {u : CodeUnit} {l : Lowering}
  {f : Function} {reach : Nat → Nat} {ps : List Point} {q : Point}

theorem Opens.stores (h : Opens s t u f reach) (hs : s.Stands past) (cancelled : Bool)
    (hv : (t.machine cancelled).Visits (t.opening f) ps q) {x : Point} (hx : x ∈ ps)
    {e : Nat × Value}
    (he : x.stored? = some e) : x.storedBy? u.entry = some e := by
  have S := h.sound cancelled s.module.globals.length fun _ => True
  obtain ⟨γ, hallows, hentry⟩ := (S.entries f).mem_visits hv
    (fun x _ => Setting.not_bad (fun _ => trivial) x) ⟨h.allows hs cancelled _, .inl rfl⟩ hx
  cases x with
  | code act w =>
    have hruns : (t.setting cancelled reach s.module.globals.length fun _ => True).Runs γ act w :=
      hallows
    obtain ⟨i, rest, slot, hr, ho, hslot, hg, -⟩ := Activation.exists_of_storing he
    obtain ⟨-, ds, hstand, -⟩ := hruns.standing hr
    have hlegal := (hruns.lawful S).legal i hstand.mem_code
    obtain ⟨n, hname⟩ := hlegal.store slot hslot ho (by simpa [Slot.isGlobal] using hg)
    have hfun : γ.1 = f := hentry.resolve_right fun hno => hno n hname
    have href : act.function.ref = u.entry := by rw [hruns.function, hfun, h.ref]
    simp only [Point.storedBy?, if_pos href]
    exact he
  | _ => cases he

theorem Opens.globals_at (h : Opens s t u f reach) (hs : s.Stands past) (cancelled : Bool)
    (hv : (t.machine cancelled).Visits (t.opening f) ps q) (k : Nat) :
    q.world.globals.getD k .zero = ((ps.filterMap (Point.storedBy? u.entry)).reverse.lookup k).getD
      (s.world.globals.getD k .zero) := by
  have hstores : ps.filterMap Point.stored? = ps.filterMap (Point.storedBy? u.entry) := by
    refine List.filterMap_congr fun x hx => ?_
    cases he : x.stored? with
    | some e => exact (h.stores hs cancelled hv hx he).symm
    | none =>
      cases x with
      | code act w =>
        have he : act.storing? = none := he
        simp [Point.storedBy?, he]
      | _ => rfl
  rw [h.getD_globals hs cancelled hv, hstores]

/-- How a session goes on: the sessions that come after it, each with what the entries of units have
stored in between, in order. A unit runs to its end, to a failure or out of fuel. -/
inductive Continues (s : Session) : List (Nat × Value) → Session → Prop where
  | refl : Continues s [] s
  | outside {t t' : Session} {stores : List (Nat × Value)} : Continues s stores t →
      t'.lowering = t.lowering → t'.world.globals = t.world.globals → Continues s stores t'
  | rejected {t : Session} {stores : List (Nat × Value)} (cancelled : Bool)
    {src : String} {p : Program}
      {e : LowerFailure} {l : Lowering} : Continues s stores t → Program.parse src = .ok p →
      t.lowering.lower p = (.error e, l) → Continues s stores (t.execute cancelled p).2
  | executed {t : Session} {stores : List (Nat × Value)} (cancelled : Bool)
    {src : String} {p : Program}
      {u : CodeUnit} {l : Lowering} {f : Function} {ps : List Point} {q : Point} :
      Continues s stores t → Program.parse src = .ok p → t.lowering.lower p = (.ok u, l) →
      (t.prepare u l).module.function? u.entry.id = some f →
      ((t.prepare u l).machine cancelled).StopsBy ((t.prepare u l).opening f) ps q
        (((t.prepare u l).machine cancelled).run Machine.ample f [] 0
          ((t.prepare u l).opening f).world) →
      Continues s (stores ++ ps.filterMap (Point.storedBy? u.entry)) (t.execute cancelled p).2

variable {stores more : List (Nat × Value)}

theorem Reached.continues (h : s.Reached past) (hc : s.Continues stores t) :
    ∃ past', t.Reached past' := by
  induction hc with
  | refl => exact ⟨past, h⟩
  | outside _ hl hw ih =>
    obtain ⟨past', ih⟩ := ih
    exact ⟨past', ih.outside hl hw⟩
  | rejected cancelled _ hp hl ih =>
    obtain ⟨past', ih⟩ := ih
    exact ⟨past', ih.rejected cancelled hp hl⟩
  | executed cancelled _ hp hl hf hstop ih =>
    obtain ⟨past', ih⟩ := ih
    exact ⟨_, ih.executed cancelled hp hl hf (ih.checkEntry hp hl hf) hstop⟩

theorem Reached.continues_execute (h : t.Reached past) (hc : s.Continues stores t)
    (cancelled : Bool)
    (hp : Program.parse src = .ok p) :
    ∃ more, s.Continues (stores ++ more) (t.execute cancelled p).2 := by
  rcases hl : t.lowering.lower p with ⟨_ | u, l⟩
  · exact ⟨[], by rw [List.append_nil]; exact hc.rejected cancelled hp hl⟩
  · obtain ⟨f, reach, ho⟩ := h.stands.opens hp hl
    obtain ⟨ps, q, hstop⟩ := Machine.StopsBy.exists_of_stopsAt
      (((Machine.stopsAt_fuel Machine.ample).1 f [] 0 ((t.prepare u l).opening f).world ho.code :
        ((t.prepare u l).machine cancelled).StopsAt _ _))
    exact ⟨_, hc.executed cancelled hp hl ho.function hstop⟩

theorem Reached.module_of_error (h : s.Reached past) (cancelled : Bool)
    (hp : Program.parse src = .ok p)
    {e : LowerFailure} (hl : s.lowering.lower p = (.error e, l)) :
    (s.execute cancelled p).2.module = s.module := by
  have hrest := h.reachable.settled.lower (Lowering.namedAll_of_parse hp)
  rw [hl] at hrest
  have hrest : l.Restores s.lowering := hrest
  unfold module
  rw [(execute_of_error cancelled hl).1, hrest]
  rfl

theorem Reached.continues_globals (h : s.Reached past) (hc : s.Continues stores t) :
    s.module.globals <+: t.module.globals ∧ ∀ k, t.world.globals.getD k .zero =
      (stores.reverse.lookup k).getD (s.world.globals.getD k .zero) := by
  induction hc with
  | refl => exact ⟨List.prefix_rfl, fun _ => rfl⟩
  | outside _ hl hw ih =>
    obtain ⟨hpre, hvalue⟩ := ih
    rw [hw]
    exact ⟨by unfold module at hpre ⊢; rwa [hl], hvalue⟩
  | @rejected t stores cancelled src p e l hc hp hl ih =>
    obtain ⟨hpre, hvalue⟩ := ih
    obtain ⟨past', ht⟩ := h.continues hc
    rw [(execute_of_error cancelled hl).2, ht.module_of_error cancelled hp hl]
    exact ⟨hpre, hvalue⟩
  | @executed t stores cancelled src p u l f ps q hc hp hl hf hstop ih =>
    obtain ⟨hpre, hvalue⟩ := ih
    obtain ⟨past', ht⟩ := h.continues hc
    obtain ⟨f', reach, ho⟩ := ht.stands.opens hp hl
    cases hf.symm.trans ho.function
    obtain ⟨hlow, hworld⟩ := execute_of_stops cancelled hl hf (ht.checkEntry hp hl hf) hstop
    have hmodule : (t.execute cancelled p).2.module = (t.prepare u l).module :=
      congrArg Lowering.module hlow
    refine ⟨by rw [hmodule]; exact hpre.trans ho.globals, fun k => ?_⟩
    rw [hworld, ho.globals_at ht.stands cancelled hstop.visits k, hvalue k, List.reverse_append,
      List.lookup_append]
    cases (ps.filterMap (Point.storedBy? u.entry)).reverse.lookup k <;> rfl

theorem world_log (s : Session) (r : LogRecord) : ∃ es : Array Event,
    (s.log r).world = { s.world with events := s.world.events ++ es } ∧
    ∀ bytes, .out bytes ∉ es := by
  unfold log
  split
  · exact ⟨#[], by simp, by simp⟩
  · exact ⟨#[.log r.json], by simp [emit, World.emit], by simp⟩
  · rename_i least color _
    split
    · exact ⟨#[.err (r.console color)], by simp [emit, World.emit], by simp⟩
    · exact ⟨#[], by simp, by simp⟩

/-- Globals survive a session. In every session `t` that goes on from the start, storage is never
longer than the list of globals. A global that a unit has brought keeps its place, its name and its
type for the rest of the session, whatever becomes of that unit and of later ones. Its value is the
one that the entry of some unit stored to it last, at every point of every run, and zero if there is
none. A program that cannot be lowered calls no native function, writes no output and changes no
value. -/
theorem Continues.globals_survive {settings : Settings} {sink : LogSink} {color : Bool}
    {world : World}
    (hworld : world.globals = #[]) (hstart : start settings sink color world = .ok s)
    (hc : s.Continues stores t) :
    t.world.globals.size ≤ t.module.globals.length ∧
    (∀ k, t.world.globals.getD k .zero = lastStored stores k) ∧
    (∀ more t', t.Continues more t' → t.module.globals <+: t'.module.globals ∧
      ∀ k, t'.world.globals.getD k .zero = lastStored (stores ++ more) k) ∧
    ∀ (cancelled : Bool) (src : String) (p : Program), Program.parse src = .ok p →
      (∃ more, s.Continues (stores ++ more) (t.execute cancelled p).2) ∧
      (∀ e l, t.lowering.lower p = (.error e, l) →
        (t.execute cancelled p).2.module.globals = t.module.globals ∧
        ∃ es : Array Event, (t.execute cancelled p).2.world =
          { t.world with events := t.world.events ++ es } ∧ ∀ bytes, .out bytes ∉ es) ∧
      ∀ u l, t.lowering.lower p = (.ok u, l) → t.module.globals <+: l.module.globals ∧
        (t.execute cancelled p).2.module.globals = l.module.globals ∧
        ∃ f, (t.prepare u l).module.function? u.entry.id = some f ∧ ∀ ps q,
          ((t.prepare u l).machine cancelled).Visits ((t.prepare u l).opening f) ps q →
            ∀ k, q.world.globals.getD k .zero =
              lastStored (stores ++ ps.filterMap (Point.storedBy? u.entry)) k := by
  have hs : s.Reached _ := .start hworld hstart
  obtain ⟨past, ht⟩ := hs.continues hc
  have hempty : s.world.globals = #[] := by
    unfold start at hstart
    cases hv : settings.validate with
    | error e => rw [hv] at hstart; cases hstart
    | ok =>
      rw [hv] at hstart
      cases hstart
      rw [globals_log]
      exact hworld
  have hvalue : ∀ k, t.world.globals.getD k .zero = lastStored stores k := by
    intro k
    rw [(hs.continues_globals hc).2 k, hempty]
    rfl
  refine ⟨ht.stands.size, hvalue, fun more t' hmore => ?_,
    fun cancelled src p hp => ⟨?_, fun e l hl => ?_,
    fun u l hl => ?_⟩⟩
  · obtain ⟨hpre, hlater⟩ := ht.continues_globals hmore
    exact ⟨hpre, fun k => by rw [hlater, hvalue, lastStored_append]⟩
  · exact ht.continues_execute hc cancelled hp
  · refine ⟨by rw [ht.module_of_error cancelled hp hl], ?_⟩
    simp only [execute, hl]
    exact world_log { t with lowering := l } _
  · obtain ⟨f, reach, ho⟩ := ht.stands.opens hp hl
    have hglobals : (t.prepare u l).module.globals = l.module.globals :=
      (t.optimized_prepare u l).1.globals
    obtain ⟨ps, q, hstop⟩ := Machine.StopsBy.exists_of_stopsAt
      (((Machine.stopsAt_fuel Machine.ample).1 f [] 0 ((t.prepare u l).opening f).world ho.code :
        ((t.prepare u l).machine cancelled).StopsAt _ _))
    have hlow := (execute_of_stops cancelled hl ho.function
      (ht.checkEntry hp hl ho.function) hstop).1
    refine ⟨hglobals ▸ ho.globals, ?_, f, ho.function, fun ps q hv k => ?_⟩
    · rw [← hglobals]
      exact congrArg (fun l => (Lowering.module l).globals) hlow
    · rw [ho.globals_at ht.stands cancelled hv k, hvalue, lastStored_append]

/-- A session that has run a unit with an assignment, and then a program with a name that nothing
has. -/
theorem globals_survive_rejected : ∃ p p' stores t,
    (World.globals {} = #[] ∧ start {} .nowhere false {} = .ok initial ∧
      Program.parse "x = do(read)" = .ok p ∧ Program.parse "y = x z" = .ok p' ∧
      t = ((initial.execute false p).2.execute false p').2 ∧ initial.Continues stores t) ∧
    t.world.globals.size ≤ t.module.globals.length ∧
    ∀ k, t.world.globals.getD k .zero = lastStored stores k := by
  obtain ⟨p, hp⟩ : ∃ p, Program.parse "x = do(read)" = .ok p :=
    ⟨[.binary ⟨1, 3⟩ "=" (.ident ⟨1, 1⟩ "x") (.call ⟨1, 5⟩ true "read" [])], by cbv⟩
  obtain ⟨p', hp'⟩ : ∃ p, Program.parse "y = x z" = .ok p :=
    ⟨[.binary ⟨1, 3⟩ "=" (.ident ⟨1, 1⟩ "y") (.ident ⟨1, 5⟩ "x"), .ident ⟨1, 7⟩ "z"], by cbv⟩
  obtain ⟨stores, hfirst⟩ := reached_initial.continues_execute .refl false hp
  obtain ⟨past, hreached⟩ := reached_initial.continues hfirst
  obtain ⟨more, hsecond⟩ := hreached.continues_execute hfirst false hp'
  have hworld : World.globals {} = #[] := rfl
  obtain ⟨hsize, hvalue, -⟩ := Continues.globals_survive hworld start_initial hsecond
  exact ⟨p, p', _, _, ⟨hworld, start_initial, hp, hp', rfl, hsecond⟩, hsize, hvalue⟩

end Session

end RealScript
