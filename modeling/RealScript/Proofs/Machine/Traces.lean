import RealScript.Proofs.Machine.Runs

/-! # What happens in a run

A run passes from point to point. At some points it calls a function, whose own points it passes
before it goes on. What holds of the points can be shown step by step: from a call one may assume
what was shown of its return.
-/

namespace RealScript

inductive Point where
  | call (f : Function) (args : List Value) (depth : Nat) (w : World)
  /-- An activation is about to take its next step. -/
  | code (act : Activation) (w : World)
  /-- A native function is about to go on with an action. -/
  | native (f : Function) (depth : Nat) (a : Action) (w : World)
  | back (v : Value) (w : World)
  | fail (e : Fault) (w : World)

def Point.world : Point → World
  | .call _ _ _ w | .code _ w | .native _ _ _ w | .back _ w | .fail _ w => w

def Point.outcome? : Point → Option (Except RuntimeError Value)
  | .back v _ => some (.ok v)
  | .fail (.runtime e) _ => some (.error e)
  | _ => none

inductive Advance where
  | go (p : Point)
  /-- A call, and where its outcome leads to. -/
  | call (f : Function) (args : List Value) (depth : Nat) (w : World)
      (next : Except RuntimeError Value → World → Point)
  | stop

def Activation.resume (act : Activation) : Except RuntimeError Value → World → Point
  | .ok v, w => .code (act.receive v) w
  | .error e, w => .fail (.runtime e) w

namespace World

variable (w : World)

theorem globals_inputWords : w.inputWords.2.globals = w.globals := by
  obtain ⟨globals, source, answers, _, _, _, _, _⟩ := w
  cases source with
  | stream => rfl
  | prompts => rcases answers with - | ⟨- | - | -, rest⟩ <;> rfl

theorem globals_leaveInput (rest : List UInt8) : (w.leaveInput rest).globals = w.globals := by
  unfold leaveInput
  split <;> rfl

end World

namespace Machine

variable {m : Machine} {p q : Point} {ps : List Point} {f : Function} {args : List Value} {d : Nat}
  {w w' : World} {v : Value} {e : Fault} {next : Except RuntimeError Value → World → Point}

def advanceNative (m : Machine) (f : Function) (depth : Nat) (w : World) : Action → Advance
  | .done v => .go (.back v w)
  | .fail cause => .go (.fail (.runtime ⟨f.name, cause⟩) w)
  | .raise e => .go (.fail (.runtime e) w)
  | .attempt none _ next => .go (.native f depth (next (.error ⟨"?", .uninitialized⟩)) w)
  | .attempt (some r) args next =>
    if args.length ≠ r.params.length then
      .go (.native f depth (next (.error ⟨r.name, .argumentCount r.params.length args.length⟩)) w)
    else match m.module.function? r.id with
      | none => .go (.native f depth (next (.error ⟨r.name, .unbound⟩)) w)
      | some callee => .call callee args (depth + 1) w fun x w => .native f depth (next x) w
  | .proceed next =>
    match m.context.interrupt? w.clock with
    | some i => .go (.fail (.runtime ⟨f.name, .interrupted i⟩) w)
    | none => .go (.native f depth next w)
  | .enterPool next =>
    if w.pool.closed then .go (.fail (.runtime ⟨f.name, .poolClosed⟩) w)
    else .go (.native f depth next w)
  | .write bytes next =>
    match w.write bytes with
    | (.ok (), w) => .go (.native f depth next w)
    | (.error cause, w) => .go (.fail (.runtime ⟨f.name, cause⟩) w)
  | .read next =>
    match w.inputWords with
    | (.ok words, w) => .go (.native f depth (next words) w)
    | (.error cause, w) => .go (.fail (.runtime ⟨f.name, cause⟩) w)
  | .leave rest next => .go (.native f depth next (w.leaveInput rest))

inductive Acts (m : Machine) (f : Function) (d : Nat) (w : World) : Action → Point → Prop where
  | done (v : Value) : Acts m f d w (.done v) (.back v w)
  | fail (cause : RunCause) : Acts m f d w (.fail cause) (.fail (.runtime ⟨f.name, cause⟩) w)
  | raise (e : RuntimeError) : Acts m f d w (.raise e) (.fail (.runtime e) w)
  | missing {args : List Value} {next : Except RuntimeError Value → Action} :
      Acts m f d w (.attempt none args next) (.native f d (next (.error ⟨"?", .uninitialized⟩)) w)
  | misfit {r : FuncRef} {args : List Value} {next : Except RuntimeError Value → Action} :
      args.length ≠ r.params.length → Acts m f d w (.attempt (some r) args next)
        (.native f d (next (.error ⟨r.name, .argumentCount r.params.length args.length⟩)) w)
  | unbound {r : FuncRef} {args : List Value} {next : Except RuntimeError Value → Action} :
      m.module.function? r.id = none →
      Acts m f d w (.attempt (some r) args next) (.native f d (next (.error ⟨r.name, .unbound⟩)) w)
  | stop {next : Action} {i : Interrupt} : m.context.interrupt? w.clock = some i →
      Acts m f d w (.proceed next) (.fail (.runtime ⟨f.name, .interrupted i⟩) w)
  | proceed (next : Action) : Acts m f d w (.proceed next) (.native f d next w)
  | closed {next : Action} : Acts m f d w (.enterPool next)
    (.fail (.runtime ⟨f.name, .poolClosed⟩) w)
  | enter (next : Action) : Acts m f d w (.enterPool next) (.native f d next w)
  | unwritten {bytes : List UInt8} {next : Action} (text : String) :
      Acts m f d w (.write bytes next) (.fail (.runtime ⟨f.name, .other text⟩) w)
  | write (bytes : List UInt8) (next : Action) :
      Acts m f d w (.write bytes next) (.native f d next (w.emit (.out bytes)))
  | unread {next : InputWords → Action} {cause : RunCause} {w' : World} : w.inputWords =
    (.error cause, w') → Acts m f d w (.read next) (.fail (.runtime ⟨f.name, cause⟩) w')
  | read {next : InputWords → Action} {words : InputWords} {w' : World} : w.inputWords =
    (.ok words, w') → Acts m f d w (.read next) (.native f d (next words) w')
  | leave (rest : List UInt8) (next : Action) :
      Acts m f d w (.leave rest next) (.native f d next (w.leaveInput rest))

theorem acts_of_advanceNative {a : Action} (h : m.advanceNative f d w a = .go p) :
    m.Acts f d w a p := by
  cases a with
  | attempt r args next =>
    cases r with
    | none =>
      cases h
      exact .missing
    | some r =>
      simp only [advanceNative] at h
      split at h
      · cases h
        exact .misfit ‹_›
      · split at h <;> cases h
        exact .unbound ‹_›
  | proceed next =>
    simp only [advanceNative] at h
    split at h <;> cases h
    · exact .stop ‹_›
    · exact .proceed next
  | enterPool next =>
    simp only [advanceNative] at h
    split at h <;> cases h
    · exact .closed
    · exact .enter next
  | write bytes next =>
    simp only [advanceNative, World.write] at h
    cases ho : w.outFailure <;> simp only [ho] at h <;> cases h
    · exact .write bytes next
    · exact .unwritten _
  | read next =>
    simp only [advanceNative] at h
    split at h <;> cases h
    · exact .read ‹_›
    · exact .unread ‹_›
  | done | fail | raise | leave =>
    cases h
    constructor

theorem Acts.globals {a : Action} (h : m.Acts f d w a p) : p.world.globals = w.globals := by
  have hin := w.globals_inputWords
  cases h with
  | unread hw | read hw =>
    rw [hw] at hin
    exact hin
  | leave rest => exact w.globals_leaveInput rest
  | _ => rfl

def advance (m : Machine) : Point → Advance
  | .call f args depth w =>
    if f.native then
      match m.native? f.name with
      | none => .go (.fail (.runtime ⟨f.name, .unbound⟩) w)
      | some native => .go (.native f depth (native args) (w.noteCall f.name args))
    else if m.maxDepth < depth then .go (.fail (.runtime ⟨f.name, .callDepth⟩) w)
    else match Activation.start? f args depth with
      | none => .go (.fail (.runtime ⟨f.name, .fellOff ""⟩) w)
      | some act => .go (.code act w)
  | .code act w =>
    match m.turn act w with
    | .go act w => .go (.code act w)
    | .call callee args => .call callee args (act.depth + 1) w act.resume
    | .done v => .go (.back v w)
    | .fail e w => .go (.fail e w)
  | .native f depth a w => m.advanceNative f depth w a
  | .back _ _ | .fail _ _ => .stop

/-- A run of one activation passes the points `ps`, with those of its calls, on the way from one
point to another. -/
inductive Passes (m : Machine) : Point → List Point → Point → Prop where
  | refl (p : Point) : Passes m p [] p
  | go {p p' q : Point} {ps : List Point} : m.advance p = .go p' → Passes m p' ps q →
      Passes m p (p :: ps) q
  | back {p q r : Point} {f : Function} {args : List Value} {d : Nat} {w : World}
      {next : Except RuntimeError Value → World → Point} {x : Except RuntimeError Value}
      {ps qs : List Point} :
      m.advance p = .call f args d w next → Passes m (.call f args d w) qs r →
      r.outcome? = some x → Passes m (next x r.world) ps q → Passes m p (p :: qs ++ r :: ps) q

/-- A run passes the points `ps` on the way from one point to another, which may be in a call. -/
inductive Visits (m : Machine) : Point → List Point → Point → Prop where
  | level {p q : Point} {ps : List Point} : m.Passes p ps q → Visits m p ps q
  | enter {p q r : Point} {f : Function} {args : List Value} {d : Nat} {w : World}
      {next : Except RuntimeError Value → World → Point} {ps qs : List Point} : m.Passes p ps q →
      m.advance q = .call f args d w next → Visits m (.call f args d w) qs r →
      Visits m p (ps ++ q :: qs) r

theorem Visits.go {p p' q : Point} (h : m.advance p = .go p')
    (hv : m.Visits p' ps q) : m.Visits p (p :: ps) q := by
  cases hv with
  | level hp => exact .level (.go h hp)
  | enter hp hc hv => exact .enter (.go h hp) hc hv

theorem Visits.back {qs : List Point} {r : Point} {x : Except RuntimeError Value}
    (h : m.advance p = .call f args d w next) (hc : m.Passes (.call f args d w) qs r)
    (hx : r.outcome? = some x) (hv : m.Visits (next x r.world) ps q) :
    m.Visits p (p :: qs ++ r :: ps) q := by
  cases hv with
  | level hp => exact .level (.back h hc hx hp)
  | enter hp hc' hv =>
    have := Visits.enter (.back h hc hx hp) hc' hv
    simpa using this

theorem Passes.transfer {m' : Machine} (h : m.Passes p ps q)
    (ha : ∀ x ∈ ps, m'.advance x = m.advance x) : m'.Passes p ps q := by
  induction h with
  | refl => exact .refl _
  | go hp _ ih =>
    rw [← ha _ List.mem_cons_self] at hp
    exact .go hp (ih fun x hx => ha x (List.mem_cons_of_mem _ hx))
  | back hp _ hx _ ihc ih =>
    simp only [List.cons_append, List.mem_cons, List.mem_append] at ha
    rw [← ha _ (.inl rfl)] at hp
    exact .back hp (ihc fun x hx => ha x (.inr (.inl hx))) hx
      (ih fun x hx => ha x (.inr (.inr (.inr hx))))

theorem Visits.transfer {m' : Machine} (h : m.Visits p ps q)
    (ha : ∀ x ∈ ps, m'.advance x = m.advance x) : m'.Visits p ps q := by
  induction h with
  | level h => exact .level (h.transfer ha)
  | enter h hc _ ih =>
    simp only [List.mem_append, List.mem_cons] at ha
    rw [← ha _ (.inr (.inl rfl))] at hc
    exact .enter (h.transfer fun x hx => ha x (.inl hx)) hc (ih fun x hx => ha x (.inr (.inr hx)))

theorem Passes.split {pre post : List Point} {x : Point} (h : m.Passes p ps q)
    (he : ps = pre ++ x :: post) : m.Visits p pre x := by
  induction h generalizing pre post with
  | refl => simp at he
  | go ha _ ih =>
    cases pre with
    | nil =>
      obtain ⟨rfl, -⟩ := List.cons.inj he
      exact .level (.refl _)
    | cons y pre =>
      obtain ⟨rfl, htail⟩ := List.cons.inj he
      exact (ih htail).go ha
  | @back p q r f args d w next y ps qs ha hc hy _ ihc ih =>
    cases pre with
    | nil =>
      obtain ⟨rfl, -⟩ := List.cons.inj he
      exact .level (.refl _)
    | cons z pre =>
      obtain ⟨rfl, htail⟩ := List.cons.inj he
      -- The point is one of the call, its end, or one behind it.
      rcases List.append_eq_append_iff.mp htail with ⟨as, rfl, hcut⟩ | ⟨bs, rfl, hcut⟩
      · cases as with
        | nil =>
          obtain ⟨rfl, -⟩ := List.cons.inj hcut
          simpa using Visits.enter (.refl _) ha (.level hc)
        | cons a as =>
          obtain ⟨rfl, hrest⟩ := List.cons.inj hcut
          simpa using Visits.back ha hc hy (ih hrest)
      · cases bs with
        | nil =>
          obtain ⟨rfl, -⟩ := List.cons.inj hcut
          simpa using Visits.enter (.refl _) ha (.level hc)
        | cons b bs =>
          obtain ⟨rfl, -⟩ := List.cons.inj hcut
          simpa using Visits.enter (.refl _) ha (ihc rfl)

theorem Visits.split {pre post : List Point} {x : Point} (h : m.Visits p ps q)
    (he : ps = pre ++ x :: post) : m.Visits p pre x := by
  induction h generalizing pre post with
  | level h => exact h.split he
  | @enter p q r f args d w next ps qs h ha _ ih =>
    rcases List.append_eq_append_iff.mp he with ⟨as, rfl, hcut⟩ | ⟨bs, rfl, hcut⟩
    · cases as with
      | nil =>
        obtain ⟨rfl, -⟩ := List.cons.inj hcut
        simpa using Visits.level h
      | cons a as =>
        obtain ⟨rfl, hrest⟩ := List.cons.inj hcut
        exact .enter h ha (ih hrest)
    · cases bs with
      | nil =>
        obtain ⟨rfl, -⟩ := List.cons.inj hcut
        simpa using Visits.level h
      | cons b bs =>
        obtain ⟨rfl, -⟩ := List.cons.inj hcut
        exact h.split rfl

/-- Where a run that starts at a point stops: at a result or at an error. A fault that is no error
of the program stops it inside of a call. When fuel runs out, it stops at some point that it has
come to. -/
def StopsAt (m : Machine) (p : Point) : EStateM.Result Fault World Value → Prop
  | .ok v w => ∃ ps, m.Passes p ps (.back v w)
  | .error (.runtime e) w => ∃ ps, m.Passes p ps (.fail (.runtime e) w)
  | .error .missingOperand w => ∃ ps, m.Visits p ps (.fail .missingOperand w)
  | .error .outOfFuel w => ∃ ps q, m.Visits p ps q ∧ q.world = w

theorem StopsAt.visits (h : m.StopsAt p (.error e w)) (he : e ≠ .outOfFuel) :
    ∃ ps, m.Visits p ps (.fail e w) := by
  cases e with
  | runtime e =>
    obtain ⟨ps, h⟩ := h
    exact ⟨ps, .level h⟩
  | missingOperand => exact h
  | outOfFuel => exact absurd rfl he

theorem StopsAt.go {p p' : Point} {r : EStateM.Result Fault World Value}
    (h : m.StopsAt p' r) (hp : m.advance p = .go p') : m.StopsAt p r := by
  cases r with
  | ok v w =>
    obtain ⟨ps, h⟩ := h
    exact ⟨_, .go hp h⟩
  | error e w =>
    cases e with
    | outOfFuel =>
      obtain ⟨ps, q, h, hw⟩ := h
      exact ⟨_, q, h.go hp, hw⟩
    | runtime =>
      obtain ⟨ps, h⟩ := h
      exact ⟨_, .go hp h⟩
    | missingOperand =>
      obtain ⟨ps, h⟩ := h
      exact ⟨_, h.go hp⟩

theorem StopsAt.back {r : EStateM.Result Fault World Value} {q : Point} {qs : List Point}
    {x : Except RuntimeError Value} (h : m.StopsAt (next x q.world) r)
    (hp : m.advance p = .call f args d w next) (hc : m.Passes (.call f args d w) qs q)
    (hx : q.outcome? = some x) : m.StopsAt p r := by
  cases r with
  | ok v' u =>
    obtain ⟨ps, h⟩ := h
    exact ⟨_, .back hp hc hx h⟩
  | error e u =>
    cases e with
    | outOfFuel =>
      obtain ⟨ps, q, h, hw⟩ := h
      exact ⟨_, q, .back hp hc hx h, hw⟩
    | runtime =>
      obtain ⟨ps, h⟩ := h
      exact ⟨_, .back hp hc hx h⟩
    | missingOperand =>
      obtain ⟨ps, h⟩ := h
      exact ⟨_, .back hp hc hx h⟩

def follow (r : Except RuntimeError Value → World → EStateM.Result Fault World Value) :
    EStateM.Result Fault World Value → EStateM.Result Fault World Value
  | .ok v u => r (.ok v) u
  | .error (.runtime e) u => r (.error e) u
  | .error fault u => .error fault u

theorem StopsAt.call {c : EStateM.Result Fault World Value}
    {r : Except RuntimeError Value → World → EStateM.Result Fault World Value}
    (hc : m.StopsAt (.call f args d w) c) (hp : m.advance p = .call f args d w next)
    (h : ∀ x u, m.StopsAt (next x u) (r x u)) : m.StopsAt p (follow r c) := by
  cases c with
  | ok v u =>
    obtain ⟨qs, hc⟩ := hc
    exact (h (.ok v) u).back hp hc rfl
  | error e u =>
    cases e with
    | runtime e =>
      obtain ⟨qs, hc⟩ := hc
      exact (h (.error e) u).back hp hc rfl
    | missingOperand =>
      obtain ⟨qs, hc⟩ := hc
      exact ⟨_, .enter (.refl p) hp hc⟩
    | outOfFuel =>
      obtain ⟨qs, q, hc, hw⟩ := hc
      exact ⟨_, q, .enter (.refl p) hp hc, hw⟩

theorem stopsAt_fail (h : m.advance p = .go (.fail e w)) : m.StopsAt p (.error e w) := by
  cases e with
  | runtime => exact ⟨_, .go h (.refl _)⟩
  | missingOperand => exact ⟨_, .level (.go h (.refl _))⟩
  | outOfFuel => exact ⟨_, _, .level (.go h (.refl _)), rfl⟩

theorem stopsAt_outOfFuel (p : Point) : m.StopsAt p (.error .outOfFuel p.world) :=
  ⟨[], p, .level (.refl p), rfl⟩

theorem stopsAt_perform {fuel : Nat} (ih : ∀ f args d w, m.StopsAt (.call f args d w)
    (m.invoke fuel f args d w)) (f : Function) (depth : Nat) (a : Action) (w : World) :
    m.StopsAt (.native f depth a w) (a.perform m.context (m.answer fuel depth) f.name w) := by
  induction a generalizing w with
  | done v => exact ⟨_, .go rfl (.refl _)⟩
  | fail | raise => exact stopsAt_fail rfl
  | attempt r args next ihn =>
    cases r with
    | none => exact (ihn (.error ⟨"?", .uninitialized⟩) w).go rfl
    | some r =>
      simp only [Action.perform, callBack]
      by_cases hl : args.length ≠ r.params.length
      · rw [if_pos hl]
        exact (ihn _ w).go (by simp only [advance, advanceNative, if_pos hl])
      · rw [if_neg hl]
        cases hf : m.module.function? r.id with
        | none =>
          simp only [answer, hf, failIn]
          exact (ihn (.error ⟨r.name, .unbound⟩) w).go
            (by simp only [advance, advanceNative, if_neg hl, hf])
        | some callee =>
          have ha : m.advance (.native f depth (.attempt (some r) args next) w) =
              .call callee args (depth + 1) w fun x w => .native f depth (next x) w := by
            simp only [advance, advanceNative, if_neg hl, hf]
          have hstop := (ih callee args (depth + 1) w).call ha ihn
          simp only [answer, hf]
          generalize m.invoke fuel callee args (depth + 1) w = c at hstop ⊢
          rcases c with ⟨v, u⟩ | ⟨_ | _ | _, u⟩ <;> exact hstop
  | proceed next ihn =>
    cases hi : m.context.interrupt? w.clock with
    | some i =>
      simp only [Action.perform, hi]
      exact stopsAt_fail (by simp only [advance, advanceNative, hi])
    | none =>
      simp only [Action.perform, hi]
      exact (ihn w).go (by simp only [advance, advanceNative, hi])
  | enterPool next ihn =>
    by_cases hc : w.pool.closed = true
    · simp only [Action.perform, if_pos hc]
      exact stopsAt_fail (by simp only [advance, advanceNative, if_pos hc])
    · simp only [Action.perform, if_neg hc]
      exact (ihn w).go (by simp only [advance, advanceNative, if_neg hc])
  | write bytes next ihn =>
    cases hw : w.write bytes with
    | mk r u =>
      cases r with
      | ok =>
        simp only [Action.perform, hw]
        exact (ihn u).go (by simp only [advance, advanceNative, hw])
      | error cause =>
        simp only [Action.perform, hw]
        exact stopsAt_fail (by simp only [advance, advanceNative, hw])
  | read next ihn =>
    cases hw : w.inputWords with
    | mk r u =>
      cases r with
      | ok words =>
        simp only [Action.perform, hw]
        exact (ihn words u).go (by simp only [advance, advanceNative, hw])
      | error cause =>
        simp only [Action.perform, hw]
        exact stopsAt_fail (by simp only [advance, advanceNative, hw])
  | leave rest next ihn => exact (ihn (w.leaveInput rest)).go rfl

def goOn (m : Machine) (fuel : Nat) (act : Activation) :
    Except RuntimeError Value → World → EStateM.Result Fault World Value
  | .ok v, w => m.exec fuel (act.receive v) w
  | .error e, w => .error (.runtime e) w

theorem stopsAt_fuel (fuel : Nat) :
    (∀ f args d w, f.native = false → m.StopsAt (.call f args d w) (m.run fuel f args d w)) ∧
    (∀ act w, m.StopsAt (.code act w) (m.exec fuel act w)) ∧
    (∀ f args d w, m.StopsAt (.call f args d w) (m.invoke fuel f args d w)) := by
  induction fuel with
  | zero =>
    refine ⟨fun f args d w _ => ?_, fun act w => ?_, fun f args d w => ?_⟩
    · exact stopsAt_outOfFuel (.call f args d w)
    · exact stopsAt_outOfFuel (.code act w)
    · exact stopsAt_outOfFuel (.call f args d w)
  | succ fuel ih =>
    obtain ⟨ihr, ihe, ihi⟩ := ih
    refine ⟨fun f args d w hn => ?_, fun act w => ?_, fun f args d w => ?_⟩
    · have hn' : ¬ f.native = true := by simp [hn]
      rw [run]
      by_cases hd : m.maxDepth < d
      · rw [if_pos hd]
        exact stopsAt_fail (by simp only [advance, if_neg hn', if_pos hd])
      · rw [if_neg hd, if_neg hn']
        cases hs : Activation.start? f args d with
        | none => exact stopsAt_fail (by simp only [advance, if_neg hn', if_neg hd, hs])
        | some act => exact (ihe act w).go (by simp only [advance, if_neg hn', if_neg hd, hs])
    · cases ht : m.turn act w with
      | go b v =>
        rw [exec_go _ ht]
        exact (ihe b v).go (by simp only [advance, ht])
      | call f args =>
        rw [exec_call _ ht]
        have ha : m.advance (.code act w) = .call f args (act.depth + 1) w act.resume := by
          simp only [advance, ht]
        have hstop := (ihi f args (act.depth + 1) w).call ha (r := m.goOn fuel act) fun x u => by
          cases x with
          | ok v => exact ihe (act.receive v) u
          | error e => exact ⟨_, .refl _⟩
        generalize m.invoke fuel f args (act.depth + 1) w = c at hstop ⊢
        rcases c with ⟨v, u⟩ | ⟨_ | _ | _, u⟩ <;> exact hstop
      | done x =>
        rw [exec_done _ ht]
        exact ⟨_, .go (by simp only [advance, ht]) (.refl _)⟩
      | fail e v =>
        rw [exec_fail _ ht]
        exact stopsAt_fail (by simp only [advance, ht])
    · cases hf : f.native with
      | false =>
        rw [invoke_code _ _ _ hf]
        exact ihr f args d w hf
      | true =>
        cases hn : m.native? f.name with
        | none =>
          rw [invoke, if_pos hf, hn]
          exact stopsAt_fail (by simp only [advance, if_pos hf, hn])
        | some native =>
          rw [invoke_native _ _ _ hf hn]
          exact (stopsAt_perform ihi f d _ _).go (by simp only [advance, if_pos hf, hn])

/-- What holds of the points of a run, each seen from the call that it belongs to. Where `bad` holds
nothing is said about what comes next. -/
structure Contract {Γ : Type} (m : Machine) (bad : Point → Prop) (inv : Γ → Point → Prop) :
    Prop where
  go : ∀ γ p p', inv γ p → ¬ bad p → m.advance p = .go p' → inv γ p'
  call : ∀ γ p f args d w next, inv γ p → ¬ bad p → m.advance p = .call f args d w next →
    ∃ γ', inv γ' (.call f args d w) ∧ ∀ r x, r.outcome? = some x → inv γ' r → inv γ (next x r.world)

variable {Γ : Type} {bad : Point → Prop} {inv : Γ → Point → Prop}

theorem Contract.passes (C : m.Contract bad inv) (h : m.Passes p ps q) (hb : ∀ x ∈ ps, ¬ bad x)
    {γ : Γ} (hp : inv γ p) : inv γ q := by
  induction h generalizing γ with
  | refl => exact hp
  | go ha _ ih =>
    exact ih (fun x hx => hb x (List.mem_cons_of_mem _ hx))
      (C.go _ _ _ hp (hb _ List.mem_cons_self) ha)
  | @back p q r f args d w next x ps qs ha _ hx _ ihc ih =>
    simp only [List.cons_append, List.mem_cons, List.mem_append] at hb
    obtain ⟨γ', hcall, hback⟩ := C.call _ _ _ _ _ _ _ hp (hb p (.inl rfl)) ha
    refine ih (fun x hx => hb x (.inr (.inr (.inr hx)))) (hback r x hx ?_)
    exact ihc (fun x hx => hb x (.inr (.inl hx))) hcall

theorem Contract.visits (C : m.Contract bad inv) (h : m.Visits p ps q) (hb : ∀ x ∈ ps, ¬ bad x)
    {γ : Γ} (hp : inv γ p) : ∃ γ', inv γ' q := by
  induction h generalizing γ with
  | level h => exact ⟨γ, C.passes h hb hp⟩
  | enter h ha _ ih =>
    simp only [List.mem_append, List.mem_cons] at hb
    have hq := C.passes h (fun x hx => hb x (.inl hx)) hp
    obtain ⟨γ', hcall, -⟩ := C.call _ _ _ _ _ _ _ hq (hb _ (.inr (.inl rfl))) ha
    exact ih (fun x hx => hb x (.inr (.inr hx))) hcall

theorem call_cases (h : m.advance p = .call f args d w next) :
    (∃ act, p = .code act w ∧ m.turn act w = .call f args ∧ d = act.depth + 1 ∧
      next = act.resume) ∨
    ∃ g e r after, p = .native g e (.attempt (some r) args after) w ∧
      args.length = r.params.length ∧ m.module.function? r.id = some f ∧ d = e + 1 ∧
      next = fun x w => .native g e (after x) w := by
  cases p with
  | call =>
    simp only [advance] at h
    repeat' split at h
    all_goals cases h
  | code act u =>
    simp only [advance] at h
    split at h <;> cases h
    exact .inl ⟨act, rfl, ‹_›, rfl, rfl⟩
  | native g e a u =>
    simp only [advance] at h
    cases a with
    | attempt r args' after =>
      cases r with
      | none => cases h
      | some r =>
        simp only [advanceNative] at h
        split at h
        · cases h
        · rename_i hl
          split at h <;> cases h
          exact .inr ⟨g, e, r, after, rfl, not_not.mp hl, ‹_›, rfl, rfl⟩
    | proceed | enterPool | write | read =>
      simp only [advanceNative] at h
      split at h <;> cases h
    | done | fail | raise | leave => cases h
  | back | fail => cases h

theorem world_of_call (h : m.advance p = .call f args d w next) :
    w = p.world ∧ ∀ x w', (next x w').world = w' := by
  rcases call_cases h with ⟨act, rfl, -, -, rfl⟩ | ⟨g, e, r, after, rfl, -, -, -, rfl⟩
  · refine ⟨rfl, fun x _ => ?_⟩
    cases x <;> rfl
  · exact ⟨rfl, fun _ _ => rfl⟩

structure Stays (m : Machine) (bad : Point → Prop) (inv : Γ → Point → Prop) (W : World → Prop) :
    Prop
    extends m.Contract bad inv where
  stays : ∀ γ p p', inv γ p → ¬ bad p → m.advance p = .go p' → W p.world → W p'.world

variable {W : World → Prop}

theorem Stays.holds (C : m.Stays bad inv W) : m.Contract bad fun γ p => inv γ p ∧ W p.world where
  go γ p p' h hb ha := ⟨C.go _ _ _ h.1 hb ha, C.stays _ _ _ h.1 hb ha h.2⟩
  call γ p f args d w next h hb ha := by
    obtain ⟨γ', hcall, hback⟩ := C.call _ _ _ _ _ _ _ h.1 hb ha
    obtain ⟨rfl, hnext⟩ := world_of_call ha
    exact ⟨γ', ⟨hcall, h.2⟩, fun r x hx h => ⟨hback r x hx h.1, (hnext x r.world).symm ▸ h.2⟩⟩

theorem Stays.visits (C : m.Stays bad inv W) (h : m.Visits p ps q) (hb : ∀ x ∈ ps, ¬ bad x) {γ : Γ}
    (hp : inv γ p) (hw : W p.world) : W q.world := by
  obtain ⟨-, -, hq⟩ := C.holds.visits h hb ⟨hp, hw⟩
  exact hq

theorem Contract.mem_visits (C : m.Contract bad inv) (h : m.Visits p ps q) (hb : ∀ x ∈ ps, ¬ bad x)
    {γ : Γ} (hp : inv γ p) {x : Point} (hx : x ∈ ps) : ∃ γ', inv γ' x := by
  obtain ⟨pre, post, rfl⟩ := List.append_of_mem hx
  exact C.visits (h.split rfl) (fun y hy => hb y (List.mem_append_left _ hy)) hp

end Machine

end RealScript
