import RealScript.Proofs.Machine.Traces

/-! # Runs in worlds that look alike

Runs look neither at the list of calls so far nor, unless they are interrupted, at the clock. So a
run does the same in two worlds that differ in these only. A run that neither reads nor writes
leaves the world as it is, apart from these and the globals.
-/

namespace RealScript

def World.bare (w : World) : World := { w with clock := 0, calls := #[] }

theorem World.bare_eq_iff {w w' : World} :
    w.bare = w'.bare ↔ ∃ c calls, w' = { w with clock := c, calls := calls } := by
  constructor
  · intro h
    exact ⟨w'.clock, w'.calls, by cases w; cases w'; simp_all [bare]⟩
  · rintro ⟨c, calls, rfl⟩
    rfl

def Context.Calm (ctx : Context) : Prop := ∀ c, ctx.interrupt? c = none

inductive Likewise {α : Type} (calm : Prop) :
    EStateM.Result Fault World α → EStateM.Result Fault World α → Prop where
  | ok (v : α) {w w' : World} : w.bare = w'.bare → Likewise calm (.ok v w) (.ok v w')
  | error (e : Fault) {w w' : World} : w.bare = w'.bare → Likewise calm (.error e w) (.error e w')
  | left {e : Fault} {w : World} {r : EStateM.Result Fault World α} : ¬ calm → Likewise calm
    (.error e w) r
  | right {e : Fault} {w : World} {r : EStateM.Result Fault World α} : ¬ calm →
    Likewise calm r (.error e w)

theorem Action.alike_perform {ctx : Context} {call : FuncRef → List Value → Exec Value}
    (hc : ∀ f args w w', w.bare = w'.bare → Likewise ctx.Calm (call f args w) (call f args w'))
    (name : String) (a : Action) (ha : a.Forwards) (w w' : World) (hw : w.bare = w'.bare) :
    Likewise ctx.Calm (a.perform ctx call name w) (a.perform ctx call name w') := by
  induction a generalizing w w' with
  | done v => exact .ok v hw
  | fail | raise => exact .error _ hw
  | attempt f args next ih =>
    obtain ⟨hfail, ha⟩ := ha
    cases f with
    | none =>
      change Likewise _ ((next (.error ⟨"?", .uninitialized⟩)).perform ctx call name w)
        ((next (.error ⟨"?", .uninitialized⟩)).perform ctx call name w')
      rw [hfail]
      exact .error _ hw
    | some f =>
      rw [perform_attempt hfail, perform_attempt hfail]
      by_cases hl : args.length ≠ f.params.length
      · rw [if_pos hl, if_pos hl]
        exact .error _ hw
      · rw [if_neg hl, if_neg hl]
        have hr := hc f args w w' hw
        generalize call f args w = r at hr
        generalize call f args w' = r' at hr
        cases hr with
        | ok v hu => exact ih (.ok v) (ha v) _ _ hu
        | error e hu => exact .error e hu
        | left h => exact .left h
        | right h => exact .right h
  | proceed next ih =>
    simp only [perform]
    cases hi : ctx.interrupt? w.clock with
    | some i => exact .left fun hcalm => by rw [hcalm] at hi; cases hi
    | none =>
      cases hi' : ctx.interrupt? w'.clock with
      | some i => exact .right fun hcalm => by rw [hcalm] at hi'; cases hi'
      | none => exact ih ha w w' hw
  | enterPool next ih =>
    obtain ⟨c, calls, rfl⟩ := World.bare_eq_iff.mp hw
    simp only [perform]
    split
    · exact .error _ hw
    · exact ih ha _ _ hw
  | write bytes next ih =>
    obtain ⟨c, calls, rfl⟩ := World.bare_eq_iff.mp hw
    obtain ⟨globals, source, answers, outFailure, pool, events, noted, clock⟩ := w
    simp only [perform, World.write]
    cases outFailure with
    | some text => exact .error _ rfl
    | none => exact ih ha _ _ rfl
  | read next ih =>
    obtain ⟨c, calls, rfl⟩ := World.bare_eq_iff.mp hw
    obtain ⟨globals, source, answers, outFailure, pool, events, noted, clock⟩ := w
    simp only [perform, World.inputWords, World.ask, World.emit]
    cases source with
    | stream input => exact ih _ (ha _) _ _ rfl
    | prompts =>
      rcases answers with - | ⟨- | - | -, rest⟩
      · exact .error _ rfl
      · exact ih _ (ha _) _ _ rfl
      · exact .error _ rfl
      · exact .error _ rfl
  | leave rest next ih =>
    obtain ⟨c, calls, rfl⟩ := World.bare_eq_iff.mp hw
    obtain ⟨globals, source, answers, outFailure, pool, events, noted, clock⟩ := w
    refine ih ha _ _ ?_
    cases source <;> rfl

namespace Machine

variable {m : Machine}

inductive TurnsLikewise (calm : Prop) : Turn → Turn → Prop where
  | go (act : Activation) {w w' : World} : w.bare = w'.bare → TurnsLikewise calm
    (.go act w) (.go act w')
  | call (f : Function) (args : List Value) : TurnsLikewise calm (.call f args) (.call f args)
  | done (v : Value) : TurnsLikewise calm (.done v) (.done v)
  | fail (e : Fault) {w w' : World} : w.bare = w'.bare → TurnsLikewise calm (.fail e w) (.fail e w')
  | left (e : Fault) (w : World) (t : Turn) : ¬ calm → TurnsLikewise calm (.fail e w) t
  | right (e : Fault) (w : World) (t : Turn) : ¬ calm → TurnsLikewise calm t (.fail e w)

theorem alike_transition (act : Activation) {w w' : World} (hw : w.bare = w'.bare) :
    TurnsLikewise m.context.Calm (m.transition act w) (m.transition act w') := by
  obtain ⟨c, calls, rfl⟩ := World.bare_eq_iff.mp hw
  simp only [transition, interrupt?]
  cases act.next with
  | none => exact .fail _ hw
  | some target =>
    by_cases hs : (act.steps + 1) % checkEvery = 0
    · simp only [if_pos hs]
      cases hi : m.context.interrupt? (w.clock + 1) with
      | some i => exact .left _ _ _ fun hcalm => by rw [hcalm] at hi; cases hi
      | none =>
        cases hi' : m.context.interrupt? (c + 1) with
        | some i => exact .right _ _ _ fun hcalm => by rw [hcalm] at hi'; cases hi'
        | none =>
          dsimp only
          split
          · exact .fail _ rfl
          · exact .go _ rfl
    · simp only [if_neg hs]
      split
      · exact .fail _ rfl
      · exact .go _ rfl

theorem alike_turn (act : Activation) {w w' : World} (hw : w.bare = w'.bare) :
    TurnsLikewise m.context.Calm (m.turn act w) (m.turn act w') := by
  unfold turn
  cases act.rest with
  | nil => exact alike_transition act hw
  | cons i is =>
    obtain ⟨c, calls, rfl⟩ := World.bare_eq_iff.mp hw
    dsimp only
    cases i.effect act.frame w.globals with
    | value v slots globals => exact .go _ rfl
    | call callee args =>
      simp only [enact]
      split
      · exact .fail _ hw
      · exact .call _ _
    | jump target => exact .go _ hw
    | ret v => exact .done v
    | fail | missing => exact .fail _ hw

theorem alike_fuel (hm : m.Forwards) (fuel : Nat) : (∀ f args d w w', w.bare = w'.bare →
      Likewise m.context.Calm (m.run fuel f args d w) (m.run fuel f args d w')) ∧
    (∀ act w w', w.bare = w'.bare → Likewise m.context.Calm (m.exec fuel act w)
    (m.exec fuel act w')) ∧
    (∀ f args d w w', w.bare = w'.bare →
      Likewise m.context.Calm (m.invoke fuel f args d w) (m.invoke fuel f args d w')) := by
  induction fuel with
  | zero => exact ⟨fun _ _ _ _ _ hw => .error _ hw, fun _ _ _ hw => .error _ hw,
      fun _ _ _ _ _ hw => .error _ hw⟩
  | succ fuel ih =>
    obtain ⟨ihr, ihe, ihi⟩ := ih
    refine ⟨fun f args d w w' hw => ?_, fun act w w' hw => ?_, fun f args d w w' hw => ?_⟩
    · rw [run]
      split
      · exact .error _ hw
      · split
        · exact ihi f args d w w' hw
        · cases Activation.start? f args d with
          | none => exact .error _ hw
          | some act => exact ihe act w w' hw
    · have ht := alike_turn (m := m) act hw
      rw [exec]
      dsimp only
      generalize m.turn act w = t at ht
      generalize m.turn act w' = t' at ht
      cases ht with
      | go b hv => exact ihe b _ _ hv
      | call f args =>
        have hr := ihi f args (act.depth + 1) w w' hw
        dsimp only
        generalize m.invoke fuel f args (act.depth + 1) w = r at hr
        generalize m.invoke fuel f args (act.depth + 1) w' = r' at hr
        cases hr with
        | ok v hu => exact ihe _ _ _ hu
        | error e hu => exact .error e hu
        | left h => exact .left h
        | right h => exact .right h
      | done v => exact .ok v hw
      | fail e hv => exact .error e hv
      | left e v t h => exact .left h
      | right e v t h => exact .right h
    · cases hf : f.native with
      | false =>
        rw [invoke_code _ _ _ hf]
        exact ihr f args d w w' hw
      | true =>
        cases hn : m.native? f.name with
        | none =>
          rw [invoke, if_pos hf, hn]
          exact .error _ hw
        | some native =>
          rw [invoke_native _ _ _ hf hn, invoke_native _ _ _ hf hn]
          refine Action.alike_perform (fun r args u u' hu => ?_) _ _ (hm _ _ args hn) _ _ ?_
          · unfold answer
            cases m.module.function? r.id with
            | none => exact .error _ hu
            | some callee => exact ihi callee args _ u u' hu
          · obtain ⟨c, calls, rfl⟩ := World.bare_eq_iff.mp hw
            rfl

end Machine

def Point.Talks : Point → Prop
  | .native _ _ (.write _ _) _ | .native _ _ (.read _) _ | .native _ _ (.leave _ _) _ => True
  | _ => False

def World.outside (w : World) : World := { w with globals := #[], clock := 0, calls := #[] }

theorem World.bare_eq_of_outside {w w' : World} (h : w.outside = w'.outside)
    (hg : w.globals = w'.globals) : w.bare = w'.bare := by
  cases w
  cases w'
  simp_all [outside, bare]

namespace Machine

variable {m : Machine}

theorem world_turn (m : Machine) (act : Activation) (w : World) : match m.turn act w with
    | .go _ w' | .fail _ w' => ∃ globals clock, w' = { w with globals := globals, clock := clock }
    | _ => True := by
  unfold turn
  cases act.rest with
  | nil =>
    simp only [transition]
    cases act.next with
    | none => exact ⟨_, _, rfl⟩
    | some target =>
      generalize (if (act.steps + 1) % checkEvery = 0 then _ else none : Option Interrupt) = look
      cases look with
      | some i => exact ⟨_, _, rfl⟩
      | none =>
        dsimp only
        cases m.block? act.function target <;> exact ⟨_, _, rfl⟩
  | cons i rest =>
    dsimp only
    cases i.effect act.frame w.globals with
    | call callee args =>
      simp only [enact]
      cases callee.bind (m.module.function? ·.id) with
      | none => exact ⟨_, _, rfl⟩
      | some f => trivial
    | ret => trivial
    | _ => exact ⟨_, _, rfl⟩

theorem contract_outside : m.Contract Point.Talks fun (o : World) p => p.world.outside = o := by
  constructor
  · rintro _ p p' rfl hb ha
    cases p with
    | call f args d w =>
      simp only [advance] at ha
      repeat' split at ha
      all_goals
        cases ha
        rfl
    | code act w =>
      have hw := m.world_turn act w
      simp only [advance] at ha
      split at ha <;> rename_i ht <;> rw [ht] at hw <;> cases ha
      · obtain ⟨globals, clock, rfl⟩ := hw
        rfl
      · rfl
      · obtain ⟨globals, clock, rfl⟩ := hw
        rfl
    | native f d a w =>
      cases acts_of_advanceNative ha with
      | unwritten | write | unread | read | leave => exact absurd trivial hb
      | _ => rfl
    | back | fail => cases ha
  · rintro _ p f args d w next rfl - ha
    obtain ⟨rfl, hnext⟩ := world_of_call ha
    exact ⟨_, rfl, fun r x _ hw => by rw [hnext]; exact hw⟩

end Machine

end RealScript
