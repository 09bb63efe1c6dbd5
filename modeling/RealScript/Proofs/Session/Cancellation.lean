import RealScript.Proofs.Machine.Cancellation
import RealScript.Proofs.Session.TypeSound

/-! # Units that run with a cancelled context

A unit is stopped by a context that was cancelled before it started exactly if it comes to a point
where it asks. One activation with 256 block transitions is enough for that. As many transitions in
several activations are not: such a unit ends with the value that it has under a live context.
-/

namespace RealScript

theorem Context.interrupt?_ne_cancelled {ctx : Context} (h : ctx.cancelled = false) (clock : Nat) :
    ctx.interrupt? clock ≠ some .cancelled := by
  simp only [interrupt?, h, Bool.false_eq_true, if_false]
  split <;> simp

theorem Action.Modest.candid {a : Action} (h : a.Modest) : a.Candid := by
  induction h with
  | done => trivial
  | notFunction => exact nofun
  | call _ ih | proceed _ ih | enterPool _ ih | write _ ih => exact ih

namespace Builtin

theorem candid_readNumbers (input : InputWords) (found : List Float) (ws : List Text.Word) :
    (readNumbers input found ws).Candid := by
  induction ws generalizing found with
  | nil =>
    rw [readNumbers, Action.Candid]
    cases hc : input.cause? with
    | none => trivial
    | some cause =>
      unfold InputWords.cause? at hc
      split at hc
      · cases hc
        intro i h
        cases h
      · obtain ⟨text, -, rfl⟩ := Option.map_eq_some_iff.mp hc
        intro i h
        cases h
  | cons w ws ih =>
    rw [readNumbers, Action.Candid, Action.Candid]
    split
    · exact ih _
    · intro i h
      cases h

theorem candid_natives {name : String} {native : Native} (h : natives.lookup name = some native)
    (args : List Value) : (native args).Candid := by
  by_cases hname : name = "read"
  · subst hname
    obtain rfl : read = native := Option.some.inj h
    exact fun input => candid_readNumbers input [] input.words.found
  · exact (modest_natives h hname args).candid

end Builtin

namespace Session

variable {s : Session} {past : Past} {src : String} {p : Program} {u : CodeUnit} {l : Lowering}

def StopsCancelled (t : Session) (f : Function) : Prop :=
  ∃ g w, (t.machine true).Ends f [] 0 (t.opening f).world
    (.error (.runtime ⟨g, .interrupted .cancelled⟩) w)

theorem stopsCancelled_iff (t : Session) {f : Function} (hf : f.native = false) :
    t.StopsCancelled f ↔ (t.machine false).Meets (t.opening f) Point.Asks := by
  have hlive : ∀ clock, (t.machine false).context.interrupt? clock ≠ some .cancelled :=
    fun clock => Context.interrupt?_ne_cancelled rfl clock
  exact (t.machine false).interrupted_iff (t.machine true).context hf
    (fun _ _ args hn => Builtin.forwards_natives hn args)
    (fun _ _ args hn => Builtin.candid_natives hn args) hlive fun _ => rfl

theorem ends_cancelled_iff {t : Session} {f : Function} (hf : f.native = false)
    (hno : ¬ t.StopsCancelled f) {r : EStateM.Result Fault World Value} :
    (t.machine true).Ends f [] 0 (t.opening f).world r ↔
      (t.machine false).Ends f [] 0 (t.opening f).world r :=
  Machine.ends_under_iff (t.machine true).context hf fun hm => hno
    ((stopsCancelled_iff t hf).mpr hm)

/-- A unit whose context is cancelled before it starts is stopped exactly if, under a live context,
it would come to a point where it asks. So 256 block transitions in all stop every unit that asks,
and no other one that makes so many; as many in one activation stop it always. A unit that is not
stopped ends as under a live context. -/
theorem Reached.cancelled_stops_iff (h : s.Reached past) (hp : Program.parse src = .ok p)
    (hl : s.lowering.lower p = (.ok u, l)) :
    ∃ f, (s.prepare u l).module.function? u.entry.id = some f ∧
      ((s.prepare u l).StopsCancelled f ↔ ∃ ps q,
        ((s.prepare u l).machine false).Visits ((s.prepare u l).opening f) ps q ∧ q.Asks) ∧
      (((∃ ps q, ((s.prepare u l).machine false).Visits ((s.prepare u l).opening f) ps q ∧
          256 ≤ q.world.clock) → (s.prepare u l).StopsCancelled f) ↔
        (∃ ps q, ((s.prepare u l).machine false).Visits ((s.prepare u l).opening f) ps q ∧ q.Asks) ∨
        ∀ ps q, ((s.prepare u l).machine false).Visits ((s.prepare u l).opening f) ps q →
          q.world.clock < 256) ∧
      (∀ ps act w, ((s.prepare u l).machine false).Visits ((s.prepare u l).opening f) ps
      (.code act w) → 256 ≤ act.steps → (s.prepare u l).StopsCancelled f) ∧
      (¬ (s.prepare u l).StopsCancelled f → ∀ r,
        ((s.prepare u l).machine true).Ends f [] 0 ((s.prepare u l).opening f).world r ↔
          ((s.prepare u l).machine false).Ends f [] 0 ((s.prepare u l).opening f).world r) := by
  obtain ⟨f, reach, ho⟩ := h.stands.opens hp hl
  have hstop := stopsCancelled_iff (s.prepare u l) ho.code
  refine ⟨f, ho.function, hstop.trans Machine.meets_iff, ?_, fun ps act w hv hs => ?_,
    fun hno r => ?_⟩
  · rw [hstop, Machine.meets_iff]
    constructor
    · intro hlaw
      by_cases hlong : ∃ ps q, ((s.prepare u l).machine false).Visits
        ((s.prepare u l).opening f) ps q ∧
          256 ≤ q.world.clock
      · exact .inl (hlaw hlong)
      · exact .inr fun ps q hv => Nat.not_le.mp fun hc => hlong ⟨ps, q, hv, hc⟩
    · rintro (hasks | hshort) ⟨ps, q, hv, hc⟩
      · exact hasks
      · exact absurd hc (Nat.not_le.mpr (hshort ps q hv))
  · exact hstop.mpr (Machine.meets_of_steps hv hs)
  · exact ends_cancelled_iff ho.code hno

def opened? (s : Session) (src : String) : Option (Session × Function) :=
  match Program.parse src with
  | .error _ => none
  | .ok p => match s.lowering.lower p with
    | (.error _, _) => none
    | (.ok u, l) => ((s.prepare u l).module.function? u.entry.id).map (s.prepare u l, ·)

theorem exists_of_opened {t : Session} {f : Function} (h : s.opened? src = some (t, f)) :
    ∃ p u l, Program.parse src = .ok p ∧ s.lowering.lower p = (.ok u, l) ∧ t = s.prepare u l ∧
      t.module.function? u.entry.id = some f := by
  unfold opened? at h
  split at h
  · cases h
  · rename_i p hp
    split at h
    · cases h
    · rename_i u l hl
      obtain ⟨g, hg, he⟩ := Option.map_eq_some_iff.mp h
      cases he
      exact ⟨p, u, l, hp, hl, rfl, hg⟩

def stopped : EStateM.Result Fault World Value → Bool
  | .error e _ => decide (e.interrupt? = some .cancelled)
  | .ok _ _ => false

def lasts : EStateM.Result Fault World Value → Bool
  | .ok _ w => decide (256 ≤ w.clock)
  | .error _ _ => false

theorem cancelled_stops_iff_map : ∃ p u l, (initial.Reached .blank ∧
      Program.parse "do(map, func(a) \x7b a \x7d, [1])" = .ok p ∧
      initial.lowering.lower p = (.ok u, l)) ∧
    ∃ f, (initial.prepare u l).module.function? u.entry.id = some f ∧ ∃ ps q,
      ((initial.prepare u l).machine false).Visits
      ((initial.prepare u l).opening f) ps q ∧ q.Asks := by
  have hrun : (initial.opened? "do(map, func(a) \x7b a \x7d, [1])").any (fun x =>
      stopped ((x.1.machine true).run 100 x.2 [] 0 (x.1.opening x.2).world)) =
        true := by decide +kernel
  obtain ⟨⟨t, f⟩, hopen, hrun⟩ := (Option.any_eq_true _ _).mp hrun
  obtain ⟨p, u, l, hp, hl, rfl, hf⟩ := exists_of_opened hopen
  refine ⟨p, u, l, ⟨reached_initial, hp, hl⟩, f, hf, ?_⟩
  obtain ⟨f', hf', hiff, -⟩ := reached_initial.cancelled_stops_iff hp hl
  cases hf.symm.trans hf'
  refine hiff.mp ?_
  unfold stopped at hrun
  split at hrun
  · rename_i e w he
    obtain ⟨g, rfl⟩ := Fault.eq_of_interrupt (of_decide_eq_true hrun)
    exact ⟨g, w, (fun h => by cases h), 100, he⟩
  · cases hrun

/-- Two calls of a function make 256 transitions, but neither call makes so many: the context is
never looked at. -/
theorem cancelled_runs_on : ∃ p u l f v w,
    Program.parse "func f(n) \x7b while n n = n - 1 done n \x7d f(63) f(63)" = .ok p ∧
      initial.lowering.lower p = (.ok u, l) ∧
      (initial.prepare u l).module.function? u.entry.id = some f ∧ 256 ≤ w.clock ∧
      ∀ cancelled, ((initial.prepare u l).machine cancelled).Ends f [] 0
        ((initial.prepare u l).opening f).world (.ok v w) := by
  have hrun : (initial.opened? "func f(n) \x7b while n n = n - 1 done n \x7d f(63) f(63)").any
    (fun x =>
      lasts ((x.1.machine true).run 2000 x.2 [] 0 (x.1.opening x.2).world)) =
        true := by decide +kernel
  obtain ⟨⟨t, f⟩, hopen, hrun⟩ := (Option.any_eq_true _ _).mp hrun
  obtain ⟨p, u, l, hp, hl, rfl, hf⟩ := exists_of_opened hopen
  obtain ⟨f', reach, ho⟩ := reached_initial.stands.opens hp hl
  cases hf.symm.trans ho.function
  unfold lasts at hrun
  split at hrun
  · rename_i v w he
    have hends : ((initial.prepare u l).machine true).Ends f [] 0
        ((initial.prepare u l).opening f).world (.ok v w) := ⟨trivial, 2000, he⟩
    refine ⟨p, u, l, f, v, w, hp, hl, hf, of_decide_eq_true hrun, fun cancelled => ?_⟩
    cases cancelled with
    | true => exact hends
    | false =>
      refine (ends_cancelled_iff ho.code ?_).mp hends
      rintro ⟨_, _, h⟩
      cases hends.unique h
  · cases hrun

end Session

end RealScript
