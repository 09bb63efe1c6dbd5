import RealScript.Proofs.Machine.Traces

/-! # Where a run can be cancelled

A run asks its context whether it has to stop at some of its points only: an activation at every
256th of its own block transitions, and a native function where it says so. Up to there a run does
not depend on its context, so a run whose context was cancelled before it started stops at the first
such point, or goes on as if nothing had happened.
-/

namespace RealScript

variable {i : Interrupt} {f : Function} {d : Nat} {w : World}

variable {act : Activation} {e : Fault} {p' : Point} {cause : RunCause}
  {next : Except RuntimeError Value → World → Point} {w' : World}

def Point.Asks : Point → Prop
  | .code act _ => act.rest = [] ∧ act.next ≠ none ∧ (act.steps + 1) % checkEvery = 0
  | .native _ _ (.proceed _) _ => True
  | _ => False

def Action.Candid : Action → Prop
  | .done _ => True
  | .fail cause => ∀ i, cause ≠ .interrupted i
  | .raise e => ∀ i, e.cause ≠ .interrupted i
  | .attempt _ _ next => ∀ v, (next (.ok v)).Candid
  | .proceed next | .enterPool next | .write _ next | .leave _ next => next.Candid
  | .read next => ∀ words, (next words).Candid

def Fault.interrupt? : Fault → Option Interrupt
  | .runtime ⟨_, .interrupted i⟩ => some i
  | _ => none

theorem Fault.interrupt?_ne (h : cause ≠ .interrupted i) (g : String) :
    (Fault.runtime ⟨g, cause⟩).interrupt? ≠ some i := by
  cases cause with
  | interrupted j => exact fun he => h (congrArg _ (Option.some.inj he))
  | _ => exact nofun

theorem Fault.eq_of_interrupt (h : e.interrupt? = some i) :
    ∃ g, e = .runtime ⟨g, .interrupted i⟩ := by
  unfold interrupt? at h
  split at h <;> cases h
  exact ⟨_, rfl⟩

def Point.Uninterrupted (i : Interrupt) : Point → Prop
  | .native _ _ a _ => a.Forwards ∧ a.Candid ∨
      ∃ e, a = .raise e ∧ (Fault.runtime e).interrupt? ≠ some i
  | .fail e _ => e.interrupt? ≠ some i
  | _ => True

theorem World.other_of_inputWords (w : World) (h : w.inputWords.1 = .error cause) :
    ∃ text, cause = .other text := by
  unfold inputWords at h
  split at h
  · cases h
  · split at h <;> cases h
    exact ⟨_, rfl⟩

theorem Instr.unknown_of_effect {i : Instr} {fr : Frame} {globals : Array Value}
    (h : i.effect fr globals = .fail cause) : ∃ op, cause = .unknownOpcode op := by
  unfold effect at h
  split at h
  · cases h
  unfold apply at h
  split at h
  case h_4 =>
    dsimp only at h
    repeat' split at h
    all_goals cases h
  case h_10 =>
    dsimp only at h
    split at h
    · split at h <;> cases h
    · exact ⟨_, (Effect.fail.inj h).symm⟩
  all_goals cases h

@[simp] theorem Activation.steps_receive (act : Activation) (v : Value) :
    (act.receive v).steps = act.steps := by
  unfold receive
  split <;> rfl

def Point.Forwards : Point → Prop
  | .native _ _ a _ => a.Forwards
  | _ => True

namespace Machine

variable {m : Machine} {p q : Point} {ps : List Point}

def under (m : Machine) (ctx : Context) : Machine := { m with context := ctx }

theorem advance_under (m : Machine) (ctx : Context) (h : ¬ p.Asks) :
    (m.under ctx).advance p = m.advance p := by
  cases p with
  | call | back | fail => rfl
  | code act w =>
    have ht : (m.under ctx).turn act w = m.turn act w := by
      unfold turn
      split
      · rename_i hrest
        unfold transition
        cases hnext : act.next with
        | none => rfl
        | some target =>
          have hs : ¬ (act.steps + 1) % checkEvery = 0 := fun hs => h ⟨hrest, by simp [hnext], hs⟩
          simp only [if_neg hs]
          rfl
      · rfl
    simp only [advance, ht]
  | native f d a w =>
    cases a with
    | proceed => exact (h trivial).elim
    | attempt r => cases r <;> rfl
    | _ => rfl

theorem advance_of_asks (hi : ∀ clock, m.context.interrupt? clock = some i)
    (h : p.Asks) : ∃ g w, m.advance p = .go (.fail (.runtime ⟨g, .interrupted i⟩) w) := by
  cases p with
  | call | back | fail => exact h.elim
  | code act w =>
    obtain ⟨hrest, hnext, hs⟩ := h
    obtain ⟨target, hnext⟩ := Option.ne_none_iff_exists'.mp hnext
    refine ⟨act.function.name, { w with clock := w.clock + 1 }, ?_⟩
    simp only [advance, turn, hrest, transition, hnext, if_pos hs, interrupt?, hi]
  | native f d a w =>
    cases a with
    | proceed => exact ⟨f.name, w, by simp only [advance, advanceNative, hi]⟩
    | _ => exact h.elim

def Meets (m : Machine) (p : Point) (P : Point → Prop) : Prop :=
  ∃ ps q, m.Visits p ps q ∧ P q ∧ ∀ x ∈ ps, ¬ P x

section First

variable {P : Point → Prop}

theorem Meets.go {p' : Point} (h : m.Meets p' P) (hp : ¬ P p) (ha : m.advance p = .go p') :
    m.Meets p P := by
  obtain ⟨ps, q, hv, hq, hps⟩ := h
  exact ⟨p :: ps, q, hv.go ha, hq, List.forall_mem_cons.mpr ⟨hp, hps⟩⟩

theorem Passes.meets (h : m.Passes p ps q) : (∀ x ∈ ps, ¬ P x) ∨ m.Meets p P := by
  induction h with
  | refl => exact .inl (List.forall_mem_nil _)
  | @go p p' q ps ha _ ih =>
    by_cases hp : P p
    · exact .inr ⟨[], p, .level (.refl p), hp, List.forall_mem_nil _⟩
    · exact ih.imp (fun hps => List.forall_mem_cons.mpr ⟨hp, hps⟩) fun h => h.go hp ha
  | @back p q r f args d w next x ps qs ha hc hx hpass ihc ih =>
    by_cases hp : P p
    · exact .inr ⟨[], p, .level (.refl p), hp, List.forall_mem_nil _⟩
    rcases ihc with hqs | ⟨qs', q', hv, hq', hqs'⟩
    · by_cases hb : P r
      · exact .inr ⟨_, _, .enter (.refl p) ha (.level hc), hb, by simpa [hp] using hqs⟩
      · rcases ih with hps | ⟨ps', q', hv, hq', hps'⟩
        · exact .inl (by simpa [hp, hb, or_imp, forall_and] using And.intro hqs hps)
        · exact .inr ⟨_, q', .back ha hc hx hv, hq',
            by simpa [hp, hb, or_imp, forall_and] using And.intro hqs hps'⟩
    · exact .inr ⟨_, q', .enter (.refl p) ha hv, hq', by simpa [hp] using hqs'⟩

theorem Visits.meets (h : m.Visits p ps q) : (∀ x ∈ ps, ¬ P x) ∨ m.Meets p P := by
  induction h with
  | level h => exact h.meets
  | @enter p q r f args d w next ps qs h ha _ ih =>
    rcases h.meets (P := P) with hps | hm
    · by_cases hq : P q
      · exact .inr ⟨ps, q, .level h, hq, hps⟩
      rcases ih with hqs | ⟨qs', q', hv, hq', hqs'⟩
      · exact .inl (by simpa [hq, or_imp, forall_and] using And.intro hps hqs)
      · exact .inr ⟨_, q', .enter h ha hv, hq',
          by simpa [hq, or_imp, forall_and] using And.intro hps hqs'⟩
    · exact .inr hm

theorem meets_iff : m.Meets p P ↔ ∃ ps q, m.Visits p ps q ∧ P q := by
  refine ⟨fun ⟨ps, q, hv, hq, _⟩ => ⟨ps, q, hv, hq⟩, fun ⟨ps, q, hv, hq⟩ => ?_⟩
  exact hv.meets.elim (fun hps => ⟨ps, q, hv, hq, hps⟩) id

variable {m' : Machine}

theorem meets_transfer_iff (hP : ∀ x, ¬ P x → m'.advance x = m.advance x) :
    m'.Meets p P ↔ m.Meets p P := by
  constructor
  · rintro ⟨ps, q, hv, hq, hps⟩
    exact ⟨ps, q, hv.transfer fun x hx => (hP x (hps x hx)).symm, hq, hps⟩
  · rintro ⟨ps, q, hv, hq, hps⟩
    exact ⟨ps, q, hv.transfer fun x hx => hP x (hps x hx), hq, hps⟩

end First

theorem meets_under_iff (ctx : Context) : (m.under ctx).Meets p Point.Asks ↔ m.Meets p Point.Asks :=
  meets_transfer_iff fun _ hx => m.advance_under ctx hx

/-! ## From the points of a run to its end -/

def resume (m : Machine) (fuel : Nat) : Point → EStateM.Result Fault World Value
  | .call f args d w => m.invoke fuel f args d w
  | .code act w => m.exec fuel act w
  | .native f d a w => a.perform m.context (m.answer fuel d) f.name w
  | .back v w => .ok v w
  | .fail e w => .error e w

def Comes (m : Machine) (p : Point) (r : EStateM.Result Fault World Value) : Prop :=
  ∃ n, ∀ k, n ≤ k → m.resume k p = r

theorem resume_native_go {a : Action} (k : Nat)
    (h : m.advanceNative f d w a = .go p') : m.resume k (.native f d a w) = m.resume k p' := by
  cases a with
  | done | fail | raise | leave =>
    cases h
    rfl
  | attempt r args next =>
    cases r with
    | none =>
      cases h
      rfl
    | some r =>
      simp only [advanceNative] at h
      simp only [resume, Action.perform, callBack]
      split at h
      · rename_i hl
        cases h
        rw [if_pos hl]
      · rename_i hl
        split at h
        · rename_i hf
          cases h
          simp only [if_neg hl, answer, hf, failIn]
          rfl
        · cases h
  | proceed next =>
    simp only [advanceNative] at h
    split at h <;> rename_i hi <;> obtain rfl := Advance.go.inj h <;>
      simp only [resume, Action.perform, hi]
  | enterPool next =>
    simp only [advanceNative] at h
    split at h <;> rename_i hc <;> obtain rfl := Advance.go.inj h <;>
      simp [resume, Action.perform, hc]
  | write bytes next =>
    simp only [advanceNative] at h
    split at h <;> rename_i hw <;> obtain rfl := Advance.go.inj h <;>
      simp only [resume, Action.perform, hw]
  | read next =>
    simp only [advanceNative] at h
    split at h <;> rename_i hw <;> obtain rfl := Advance.go.inj h <;>
      simp only [resume, Action.perform, hw]

theorem resume_go (k : Nat) (h : m.advance p = .go p') :
    ∃ j, k ≤ j ∧ m.resume (k + 2) p = m.resume j p' := by
  cases p with
  | call f args d w =>
    simp only [advance] at h
    cases hf : f.native with
    | true =>
      rw [if_pos hf] at h
      refine ⟨k + 1, Nat.le_succ k, ?_⟩
      cases hn : m.native? f.name with
      | none =>
        rw [hn] at h
        cases h
        change m.invoke (k + 2) f args d w = _
        rw [invoke, if_pos hf, hn]
        rfl
      | some native =>
        rw [hn] at h
        cases h
        exact invoke_native (k + 1) args d hf hn w
    | false =>
      rw [if_neg (by simp [hf])] at h
      refine ⟨k, Nat.le_refl k, ?_⟩
      change m.invoke (k + 2) f args d w = _
      rw [invoke_code _ _ _ hf, run]
      by_cases hd : m.maxDepth < d
      · rw [if_pos hd] at h ⊢
        cases h
        rfl
      · rw [if_neg hd] at h ⊢
        rw [if_neg (by simp [hf])]
        cases hs : Activation.start? f args d <;> rw [hs] at h <;> obtain rfl :=
          Advance.go.inj h <;> rfl
  | code act w =>
    refine ⟨k + 1, Nat.le_succ k, ?_⟩
    change m.exec (k + 2) act w = _
    simp only [advance] at h
    cases ht : m.turn act w with
    | go b v =>
      rw [ht] at h
      cases h
      exact exec_go _ ht
    | call => rw [ht] at h; cases h
    | done x =>
      rw [ht] at h
      cases h
      exact exec_done _ ht
    | fail e v =>
      rw [ht] at h
      cases h
      exact exec_fail _ ht
  | native f d a w => exact ⟨k + 2, by omega, resume_native_go _ h⟩
  | back | fail => cases h

theorem resume_call {args : List Value} (k : Nat) (h : m.advance p = .call f args d w next) :
    ∃ j, k ≤ j ∧ m.resume (k + 1) p =
      follow (fun x u => m.resume j (next x u)) (m.resume j (.call f args d w)) := by
  rcases call_cases h with ⟨act, rfl, ht, rfl, rfl⟩ | ⟨g, e, r, after, rfl, hl, hf, rfl, rfl⟩
  · refine ⟨k, Nat.le_refl k, ?_⟩
    change m.exec (k + 1) act w = follow _ (m.invoke k f args (act.depth + 1) w)
    rw [exec_call _ ht]
    rcases m.invoke k f args (act.depth + 1) w with ⟨v, u⟩ | ⟨_ | _ | _, u⟩ <;> rfl
  · refine ⟨k + 1, Nat.le_succ k, ?_⟩
    have ha : m.answer (k + 1) e r args = m.invoke (k + 1) f args (e + 1) := by
      simp only [answer, hf]
    change (Action.attempt (some r) args after).perform m.context (m.answer (k + 1) e) g.name w =
      follow _ (m.invoke (k + 1) f args (e + 1) w)
    rw [Action.perform, callBack]
    simp only [if_neg (not_not.mpr hl), ha]
    rcases m.invoke (k + 1) f args (e + 1) w with ⟨v, u⟩ | ⟨_ | _ | _, u⟩ <;> rfl

theorem follow_resume {x : Except RuntimeError Value} (h : q.outcome? = some x) (k : Nat)
    (r : Except RuntimeError Value → World → EStateM.Result Fault World Value) :
    follow r (m.resume k q) = r x q.world := by
  cases q with
  | back => cases h; rfl
  | fail e => cases e <;> cases h; rfl
  | _ => cases h

section Comes

variable {r : EStateM.Result Fault World Value}

theorem Comes.go (h : m.Comes p' r) (ha : m.advance p = .go p') : m.Comes p r := by
  obtain ⟨n, hn⟩ := h
  refine ⟨n + 2, fun k hk => ?_⟩
  obtain ⟨j, hj, he⟩ := resume_go (k - 2) ha
  rw [show k = k - 2 + 2 by omega, he]
  exact hn j (by omega)

theorem Comes.call {f : Function} {args : List Value} {d : Nat} {w : World}
    {c : EStateM.Result Fault World Value} (hc : m.Comes (.call f args d w) c)
    (ha : m.advance p = .call f args d w next)
    (h : ∃ n, ∀ k, n ≤ k → follow (fun x u => m.resume k (next x u)) c = r) : m.Comes p r := by
  obtain ⟨n, hn⟩ := h
  obtain ⟨n', hn'⟩ := hc
  refine ⟨n + n' + 1, fun k hk => ?_⟩
  obtain ⟨j, hj, he⟩ := resume_call (k - 1) ha
  rw [show k = k - 1 + 1 by omega, he, hn' j (by omega)]
  exact hn j (by omega)

theorem Passes.comes (h : m.Passes p ps q) (hq : m.Comes q r) : m.Comes p r := by
  induction h generalizing r with
  | refl => exact hq
  | go ha _ ih => exact (ih hq).go ha
  | @back p q r' f args d w next x ps qs ha _ hx _ ihc ih =>
    have hend (k : Nat) : m.resume k r' = m.resume 0 r' := by
      cases r' with
      | back | fail => rfl
      | _ => cases hx
    obtain ⟨n, hn⟩ := ih hq
    refine (ihc ⟨0, fun k _ => hend k⟩).call ha ⟨n, fun k hk => ?_⟩
    rw [follow_resume hx]
    exact hn k hk

theorem contract_forwards (hm : m.Forwards) :
    m.Contract (fun _ => False) fun (_ : Unit) p => p.Forwards where
  go _ p p' hp _ ha := by
    cases p with
    | call f args d w =>
      simp only [advance] at ha
      repeat' split at ha
      all_goals cases ha
      · trivial
      · exact hm _ _ args ‹_›
      all_goals trivial
    | code act w =>
      simp only [advance] at ha
      split at ha <;> cases ha <;> trivial
    | native f d a w =>
      cases acts_of_advanceNative ha with
      | missing | misfit | unbound =>
        rw [Point.Forwards, hp.1]
        trivial
      | proceed | enter | write | leave => exact hp
      | read => exact hp _
      | _ => trivial
    | back | fail => cases ha
  call _ p f args d w next hp _ ha := by
    refine ⟨(), trivial, fun r x _ _ => ?_⟩
    rcases call_cases ha with ⟨act, rfl, -, -, rfl⟩ | ⟨g, e, r, after, rfl, -, -, -, rfl⟩
    · cases x <;> trivial
    · cases x with
      | ok v => exact hp.2 v
      | error e =>
        rw [Point.Forwards, hp.1]
        trivial

theorem Visits.comes {e : Fault} (h : m.Visits p ps q) (hq : m.Comes q (.error e w))
    (he : ∀ x, e = .runtime x → m.Forwards ∧ p.Forwards) : m.Comes p (.error e w) := by
  induction h with
  | level h => exact h.comes hq
  | @enter p q r f args d u next ps qs h ha _ ih =>
    have hcall := ih hq fun x hx => ⟨(he x hx).1, trivial⟩
    refine h.comes (hcall.call ha ⟨0, fun k _ => ?_⟩)
    cases e with
    | runtime x =>
      obtain ⟨hm, hp⟩ := he x rfl
      have hforwards := (contract_forwards hm).passes h (fun _ _ => id) (γ := ()) hp
      change m.resume k (next (.error x) w) = _
      rcases call_cases ha with ⟨act, rfl, -, -, rfl⟩ | ⟨g, e, r, after, rfl, -, -, -, rfl⟩
      · rfl
      · change m.resume k (.native g e (after (.error x)) w) = _
        rw [hforwards.1]
        rfl
    | _ => rfl

theorem StopsAt.transfer {m' : Machine} {P : Point → Prop} (h : m.StopsAt p r) (hr : Finished r)
    (hP : ∀ x, ¬ P x → m'.advance x = m.advance x) (hn : ¬ m.Meets p P) : m'.Comes p r := by
  cases r with
  | ok v w =>
    obtain ⟨ps, hp⟩ := h
    have hps := hp.meets.resolve_right hn
    exact (hp.transfer fun x hx => hP x (hps x hx)).comes ⟨0, fun _ _ => rfl⟩
  | error e w =>
    cases e with
    | outOfFuel => exact (hr rfl).elim
    | runtime e =>
      obtain ⟨ps, hp⟩ := h
      have hps := hp.meets.resolve_right hn
      exact (hp.transfer fun x hx => hP x (hps x hx)).comes ⟨0, fun _ _ => rfl⟩
    | missingOperand =>
      obtain ⟨ps, hv⟩ := h
      have hps := hv.meets.resolve_right hn
      refine (hv.transfer fun x hx => hP x (hps x hx)).comes ⟨0, fun _ _ => rfl⟩ fun x hx => ?_
      cases hx

end Comes

section Ends

variable {args : List Value} {r : EStateM.Result Fault World Value}

theorem ends_of_comes (hf : f.native = false) (hr : Finished r) (h : m.Comes (.call f args d w) r) :
    m.Ends f args d w r := by
  obtain ⟨n, hn⟩ := h
  refine ⟨hr, n, ?_⟩
  rw [← invoke_code _ _ _ hf]
  exact hn (n + 1) (Nat.le_succ n)

theorem Ends.unique {r' : EStateM.Result Fault World Value} (h : m.Ends f args d w r)
    (h' : m.Ends f args d w r') : r = r' := by
  obtain ⟨hr, n, rfl⟩ := h
  obtain ⟨hr', k, rfl⟩ := h'
  rcases Nat.le_total n k with hk | hk
  · exact (run_mono hk hr).symm
  · exact run_mono hk hr'

theorem Ends.stopsAt (hf : f.native = false) (h : m.Ends f args d w r) :
    m.StopsAt (.call f args d w) r := by
  obtain ⟨-, n, rfl⟩ := h
  exact (stopsAt_fuel n).1 f args d w hf

theorem Ends.under (ctx : Context) (hf : f.native = false)
    (hn : ¬ m.Meets (.call f args d w) Point.Asks) (h : m.Ends f args d w r) :
    (m.under ctx).Ends f args d w r := by
  have hs := (h.stopsAt hf).transfer h.1 (fun _ hx => m.advance_under ctx hx) hn
  exact ends_of_comes hf h.1 hs

theorem ends_under_iff (ctx : Context) (hf : f.native = false)
    (hn : ¬ m.Meets (.call f args d w) Point.Asks) :
    (m.under ctx).Ends f args d w r ↔ m.Ends f args d w r :=
  ⟨Ends.under (m := m.under ctx) m.context hf fun h => hn ((meets_under_iff ctx).mp h),
    Ends.under ctx hf hn⟩

end Ends

/-! ## Interruptions -/

theorem interrupt_of_turn (h : m.turn act w = .fail e w') (he : e.interrupt? = some i) :
    ∃ clock, m.context.interrupt? clock = some i := by
  unfold turn at h
  split at h
  · simp only [transition] at h
    split at h
    · cases h
      cases he
    · split at h
      · rename_i hi
        cases h
        cases he
        split at hi
        · exact ⟨_, hi⟩
        · cases hi
      · split at h <;> cases h
        cases he
  · rename_i instr _ _
    cases hf : instr.effect act.frame w.globals with
    | fail cause =>
      rw [hf] at h
      cases h
      obtain ⟨op, rfl⟩ := Instr.unknown_of_effect hf
      cases he
    | call callee args =>
      rw [hf] at h
      simp only [enact] at h
      split at h <;> cases h
      cases he
    | missing =>
      rw [hf] at h
      cases h
      cases he
    | _ => rw [hf] at h; cases h

theorem contract_uninterrupted (hm : m.Forwards) (hn : ∀ name native args,
    m.native? name = some native → (native args).Candid) (hi :
    ∀ clock, m.context.interrupt? clock ≠ some i) :
    m.Contract (fun _ => False) fun (_ : Unit) p => p.Uninterrupted i where
  go _ p p' hp _ ha := by
    cases p with
    | call f args d w =>
      simp only [advance] at ha
      split at ha
      · split at ha <;> rename_i hf <;> cases ha
        · intro h
          cases h
        · exact .inl ⟨hm _ _ args hf, hn _ _ args hf⟩
      · repeat' split at ha
        all_goals cases ha
        · intro h
          cases h
        · intro h
          cases h
        · trivial
    | code act w =>
      simp only [advance] at ha
      split at ha <;> cases ha
      · trivial
      · trivial
      · rename_i ht
        intro he
        obtain ⟨clock, hc⟩ := interrupt_of_turn ht he
        exact hi clock hc
    | native f d a w =>
      rcases hp with hp | ⟨e, rfl, he⟩
      swap
      · cases ha
        exact he
      cases acts_of_advanceNative ha with
      | done => trivial
      | fail | raise => exact Fault.interrupt?_ne (hp.2 i) _
      | missing | misfit | unbound =>
        refine .inr ⟨_, hp.1.1 _, ?_⟩
        intro h
        cases h
      | closed | unwritten =>
        intro h
        cases h
      | stop hc =>
        intro he
        cases he
        exact hi _ hc
      | proceed | enter | write | leave => exact .inl hp
      | read => exact .inl ⟨hp.1 _, hp.2 _⟩
      | unread hw =>
        obtain ⟨text, rfl⟩ := w.other_of_inputWords (congrArg Prod.fst hw)
        intro h
        cases h
    | back | fail => cases ha
  call _ p f args d w next hp _ ha := by
    refine ⟨(), trivial, fun r x hx hr => ?_⟩
    have he : ∀ e, x = .error e → (Fault.runtime e).interrupt? ≠ some i := by
      rintro e rfl
      cases r with
      | fail e' => cases e' <;> cases hx; exact hr
      | _ => cases hx
    rcases call_cases ha with ⟨act, rfl, -, -, rfl⟩ | ⟨g, e, r, after, rfl, -, -, -, rfl⟩
    · cases x with
      | ok => trivial
      | error e => exact he e rfl
    · rcases hp with hp | ⟨e, hraise, -⟩
      · cases x with
        | ok v => exact .inl ⟨hp.1.2 v, hp.2 v⟩
        | error e => exact .inr ⟨e, hp.1.1 e, he e rfl⟩
      · cases hraise

theorem steps_of_turn {act' : Activation} (h : m.turn act w = .go act' w') :
    act'.steps = act.steps ∨ act.rest = [] ∧ act.next ≠ none ∧ act'.steps = act.steps + 1 := by
  unfold turn at h
  split at h
  · rename_i hrest
    simp only [transition] at h
    split at h
    · cases h
    · rename_i hnext
      repeat' split at h
      all_goals cases h
      exact .inr ⟨hrest, by simp [hnext], rfl⟩
  · rename_i i _ _
    cases he : i.effect act.frame w.globals <;> rw [he] at h
    case value | jump =>
      obtain ⟨rfl, -⟩ := Turn.go.inj h
      exact .inl (by simp)
    case call =>
      simp only [enact] at h
      split at h <;> cases h
    all_goals cases h

theorem contract_steps : m.Contract Point.Asks fun (_ : Unit) p => ∀ act w, p = .code act w →
    act.steps < checkEvery := by
  constructor
  · rintro _ p p' hp hb ha act' w' rfl
    cases p with
    | call f args d w =>
      simp only [advance] at ha
      repeat' split at ha
      all_goals cases ha
      rename_i hs
      unfold Activation.start? at hs
      obtain ⟨b, -, rfl⟩ := Option.map_eq_some_iff.mp hs
      exact Nat.zero_lt_succ _
    | code act w =>
      simp only [advance] at ha
      split at ha <;> cases ha
      rename_i ht
      have hsteps := hp act w rfl
      rcases steps_of_turn ht with hs | ⟨hrest, hnext, hs⟩
      · rwa [hs]
      · have : (act.steps + 1) % checkEvery ≠ 0 := fun h => hb ⟨hrest, hnext, h⟩
        rw [hs]
        unfold checkEvery at *
        omega
    | native f d a w => cases acts_of_advanceNative ha
    | back | fail => cases ha
  · intro _ p f args d w next hp _ ha
    refine ⟨(), fun _ _ h => (by cases h), fun r x _ _ act' u he => ?_⟩
    rcases call_cases ha with ⟨act, rfl, -, -, rfl⟩ | ⟨g, e, r, after, rfl, -, -, -, rfl⟩
    · cases x with
      | ok v =>
        cases he
        rw [Activation.steps_receive]
        exact hp act w rfl
      | error => cases he
    · cases he

theorem meets_of_steps {args : List Value}
    {u : World} (h : m.Visits (.call f args d u) ps (.code act w)) (hs : checkEvery ≤ act.steps) :
    m.Meets (.call f args d u) Point.Asks := by
  rcases h.meets (P := Point.Asks) with hps | hm
  · obtain ⟨-, hlt⟩ := contract_steps.visits h hps (γ := ()) fun _ _ h => by cases h
    exact absurd hs (Nat.not_le.mpr (hlt act w rfl))
  · exact hm

variable {args : List Value}

theorem interrupted_iff (m : Machine) (ctx : Context) (hf : f.native = false) (hm : m.Forwards)
    (hn : ∀ name native args, m.native? name = some native → (native args).Candid)
    (hlive : ∀ clock, m.context.interrupt? clock ≠ some i)
    (hi : ∀ clock, ctx.interrupt? clock = some i) :
    (∃ g w', (m.under ctx).Ends f args d w (.error (.runtime ⟨g, .interrupted i⟩) w')) ↔
      m.Meets (.call f args d w) Point.Asks := by
  constructor
  · rintro ⟨g, w', hends⟩
    by_contra hno
    have hends : m.Ends f args d w _ := (ends_under_iff ctx hf hno).mp hends
    obtain ⟨ps, hpass⟩ := hends.stopsAt hf
    have hq := (contract_uninterrupted hm hn hlive).passes hpass (fun _ _ => id) (γ := ()) trivial
    exact hq rfl
  · rintro ⟨ps, q, hv, hq, hps⟩
    obtain ⟨g, w', ha⟩ := advance_of_asks (m := m.under ctx) hi hq
    have hfail : (m.under ctx).Comes q (.error (.runtime ⟨g, .interrupted i⟩) w') :=
      Comes.go ⟨0, fun _ _ => rfl⟩ ha
    have hv := hv.transfer fun x hx => m.advance_under ctx (hps x hx)
    exact ⟨g, w', ends_of_comes hf nofun (hv.comes hfail fun _ _ => ⟨hm, trivial⟩)⟩

end Machine

end RealScript
