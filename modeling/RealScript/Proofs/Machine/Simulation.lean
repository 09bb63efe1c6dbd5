import RealScript.Proofs.Machine.Runs

/-! # Machines that run alike

Two machines run alike when every run of one ends as the run of the other does, apart from the
clock, and diverges when the other does. It is enough to relate their activations so that each step
of the one is matched by one or more steps of the other.
-/

namespace RealScript

variable {α : Type} {m m' : Machine} {rel : Activation → Activation → Prop} {a a' : Activation}

variable {f f' : Function} {w w' : World}

def World.untimed (w : World) : World := { w with clock := 0 }

def untimed {α : Type} : EStateM.Result Fault World α → EStateM.Result Fault World α
  | .ok v w => .ok v w.untimed
  | .error e w => .error e w.untimed

theorem World.untimed_eq_iff : w.untimed = w'.untimed ↔ ∃ c, w' = { w with clock := c } := by
  constructor
  · intro h
    exact ⟨w'.clock, by cases w; cases w'; simp_all [untimed]⟩
  · rintro ⟨c, rfl⟩
    rfl

theorem finished_of_untimed {r r' : EStateM.Result Fault World α}
    (h : untimed r = untimed r') (hr : Finished r) : Finished r' := by
  cases r <;> cases r' <;> simp_all [untimed]

theorem untimed_ok {r : EStateM.Result Fault World α} {v : α}
    (h : untimed r = untimed (.ok v w)) : ∃ w', r = .ok v w' ∧ w.untimed = w'.untimed := by
  cases r <;> simp_all [untimed]

theorem untimed_error {r : EStateM.Result Fault World α} {e : Fault}
    (h : untimed r = untimed (.error e w)) : ∃ w', r = .error e w' ∧ w.untimed = w'.untimed := by
  cases r <;> simp_all [untimed]

def Context.Idle (ctx : Context) : Prop := ctx.cancelled = false ∧ ctx.deadline = none

theorem Context.Idle.interrupt {ctx : Context} (h : ctx.Idle) (clock : Nat) :
    ctx.interrupt? clock = none := by
  simp [interrupt?, h.1, h.2]

theorem World.write_clock (w : World) (c : Nat) (bytes : List UInt8) :
    World.write { w with clock := c } bytes =
      ((w.write bytes).1, { (w.write bytes).2 with clock := c }) := by
  obtain ⟨_, _, _, outFailure, _, _, _, _⟩ := w
  cases outFailure <;> rfl

theorem World.inputWords_clock (w : World) (c : Nat) : World.inputWords { w with clock := c } =
      (w.inputWords.1, { w.inputWords.2 with clock := c }) := by
  obtain ⟨_, source, answers, _, _, _, _, _⟩ := w
  cases source with
  | stream input => rfl
  | prompts =>
    cases answers with
    | nil => rfl
    | cons a rest => cases a <;> rfl

theorem World.leaveInput_clock (w : World) (c : Nat) (rest : List UInt8) :
    World.leaveInput { w with clock := c } rest = { w.leaveInput rest with clock := c } := by
  obtain ⟨_, source, _, _, _, _, _, _⟩ := w
  cases source <;> rfl

theorem callBack_alike {call : FuncRef → List Value → Exec Value}
    {call' : Nat → FuncRef → List Value → Exec Value}
    (hc : ∀ f args w w', w.untimed = w'.untimed → Finished (call f args w) →
      ∃ n, untimed (call' n f args w') = untimed (call f args w))
    (f : Option FuncRef) (args : List Value) {w w' : World} (hw : w.untimed = w'.untimed)
    (h : Finished (callBack call f args w)) :
    ∃ n, untimed (callBack (call' n) f args w') = untimed (callBack call f args w) := by
  cases f with
  | none => exact ⟨0, by simp [callBack, pure, EStateM.pure, untimed, hw]⟩
  | some f =>
    simp only [callBack] at h ⊢
    by_cases hl : args.length ≠ f.params.length
    · exact ⟨0, by simp only [if_pos hl, untimed, hw]⟩
    · simp only [if_neg hl] at h ⊢
      have hf : Finished (call f args w) := by
        cases hr : call f args w with
        | ok => trivial
        | error e u =>
          rintro rfl
          rw [hr] at h
          exact h rfl
      obtain ⟨n, hn⟩ := hc f args w w' hw hf
      refine ⟨n, ?_⟩
      cases hr : call f args w with
      | ok v u =>
        rw [hr] at hn
        obtain ⟨u', hn, hu⟩ := untimed_ok hn
        simp only [hn, untimed, hu]
      | error e u =>
        rw [hr] at hn
        obtain ⟨u', hn, hu⟩ := untimed_error hn
        cases e <;> simp only [hn, untimed, hu]

theorem Action.perform_alike {ctx ctx' : Context} (hi : ctx.Idle) (hi' : ctx'.Idle)
    {call : FuncRef → List Value → Exec Value} {call' : Nat → FuncRef → List Value → Exec Value}
    (hm : ∀ n k, n ≤ k → ∀ f args w, Finished (call' n f args w) →
      call' k f args w = call' n f args w)
    (hc : ∀ f args w w', w.untimed = w'.untimed → Finished (call f args w) →
      ∃ n, untimed (call' n f args w') = untimed (call f args w))
    (name : String) (a : Action) (w w' : World) (hw : w.untimed = w'.untimed)
    (h : Finished (a.perform ctx call name w)) :
    ∃ n, untimed (a.perform ctx' (call' n) name w') = untimed (a.perform ctx call name w) := by
  induction a generalizing w w' with
  | done v => exact ⟨0, by simp [perform, pure, EStateM.pure, untimed, hw]⟩
  | fail cause | raise e =>
    exact ⟨0, by
      simp [perform, failIn, throw, throwThe, MonadExceptOf.throw, EStateM.throw, untimed, hw]⟩
  | attempt f args next ih =>
    simp only [perform] at h ⊢
    cases hr : callBack call f args w with
    | error e u =>
      rw [hr] at h
      obtain ⟨n, hn⟩ := callBack_alike hc f args hw (by simpa [hr] using h)
      rw [hr] at hn
      obtain ⟨u', hn, hu⟩ := untimed_error hn
      exact ⟨n, by simp only [hn, untimed, hu]⟩
    | ok r u =>
      rw [hr] at h
      obtain ⟨n, hn⟩ := callBack_alike hc f args hw (by simp [hr])
      rw [hr] at hn
      obtain ⟨u', hn, hu⟩ := untimed_ok hn
      obtain ⟨k, hk⟩ := ih r u u' hu h
      refine ⟨max n k, ?_⟩
      have hcall : callBack (call' (max n k)) f args w' = .ok r u' := by
        rw [callBack_mono (hm n _ (Nat.le_max_left n k)) f args w' (by simp [hn]), hn]
      simp only [hcall]
      rw [perform_mono (hm k _ (Nat.le_max_right n k)) _ _ _ (finished_of_untimed hk.symm h)]
      exact hk
  | proceed next ih =>
    simp only [perform, hi.interrupt, hi'.interrupt] at h ⊢
    exact ih w w' hw h
  | enterPool next ih =>
    obtain ⟨c, rfl⟩ := World.untimed_eq_iff.mp hw
    simp only [perform] at h ⊢
    by_cases hp : w.pool.closed = true
    · exact ⟨0, by simp only [if_pos hp, untimed]; rfl⟩
    · simp only [if_neg hp] at h ⊢
      exact ih _ _ hw h
  | write bytes next ih =>
    obtain ⟨c, rfl⟩ := World.untimed_eq_iff.mp hw
    simp only [perform, World.write_clock] at h ⊢
    cases hr : w.write bytes with
    | mk r u =>
      rw [hr] at h
      cases r with
      | ok => exact ih u _ rfl h
      | error cause => exact ⟨0, rfl⟩
  | read next ih =>
    obtain ⟨c, rfl⟩ := World.untimed_eq_iff.mp hw
    simp only [perform, World.inputWords_clock] at h ⊢
    cases hr : w.inputWords with
    | mk r u =>
      rw [hr] at h
      cases r with
      | ok words => exact ih words u _ rfl h
      | error cause => exact ⟨0, rfl⟩
  | leave rest next ih =>
    obtain ⟨c, rfl⟩ := World.untimed_eq_iff.mp hw
    simp only [perform, World.leaveInput_clock] at h ⊢
    exact ih _ _ rfl h

namespace Machine

def Counterpart (m m' : Machine) (f f' : Function) : Prop :=
  ∃ id, m.module.function? id = some f ∧ m'.module.function? id = some f'

inductive Alike (m m' : Machine) (rel : Activation → Activation → Prop) (a a' : Activation) :
    Turn → Turn → Prop where
  | go {b b' : Activation} {v v' : World} : rel b b' → v.untimed = v'.untimed →
      Alike m m' rel a a' (.go b v) (.go b' v')
  | call {f f' : Function} (args : List Value) : m.Counterpart m' f f' → a.depth = a'.depth →
      (∀ x, rel (a.receive x) (a'.receive x)) → Alike m m' rel a a' (.call f args) (.call f' args)
  | done (x : Value) : Alike m m' rel a a' (.done x) (.done x)
  | fail (e : Fault) {v v' : World} : v.untimed = v'.untimed →
      Alike m m' rel a a' (.fail e v) (.fail e v')

theorem Counterpart.symm (h : m.Counterpart m' f f') : m'.Counterpart m f' f := by
  obtain ⟨id, hf, hf'⟩ := h
  exact ⟨id, hf', hf⟩

theorem Alike.symm {t t' : Turn} (h : Alike m m' rel a a' t t') :
    Alike m' m (flip rel) a' a t' t := by
  cases h with
  | go hb hv => exact .go hb hv.symm
  | call args hf hd hx => exact .call args hf.symm hd.symm hx
  | done x => exact .done x
  | fail e hv => exact .fail e hv.symm

theorem Alike.mono {rel' : Activation → Activation → Prop}
    (hr : ∀ a a', rel a a' → rel' a a') {t t' : Turn}
    (h : Alike m m' rel a a' t t') : Alike m m' rel' a a' t t' := by
  cases h with
  | go hb hv => exact .go (hr _ _ hb) hv
  | call args hf hd hx => exact .call args hf hd fun x => hr _ _ (hx x)
  | done x => exact .done x
  | fail e hv => exact .fail e hv

structure Paired (m m' : Machine) : Prop where
  natives : m.natives = m'.natives
  maxDepth : m.maxDepth = m'.maxDepth
  idle : m.context.Idle
  idle' : m'.context.Idle
  functions : ∀ id, m.module.function? id = none ↔ m'.module.function? id = none
  signature : ∀ f f', m.Counterpart m' f f' → f.ref = f'.ref ∧ f.native = f'.native

namespace Paired

theorem symm (P : Paired m m') : Paired m' m where
  natives := P.natives.symm
  maxDepth := P.maxDepth.symm
  idle := P.idle'
  idle' := P.idle
  functions id := (P.functions id).symm
  signature f f' h :=
    have ⟨href, hnat⟩ := P.signature f' f h.symm
    ⟨href.symm, hnat.symm⟩

theorem function_cases (P : Paired m m') (id : Nat) :
    (m.module.function? id = none ∧ m'.module.function? id = none) ∨
    ∃ f f', m.module.function? id = some f ∧ m'.module.function? id = some f' ∧
      m.Counterpart m' f f' := by
  cases h : m.module.function? id with
  | none => exact .inl ⟨rfl, (P.functions id).mp h⟩
  | some f =>
    cases h' : m'.module.function? id with
    | none => rw [(P.functions id).mpr h'] at h; cases h
    | some f' => exact .inr ⟨f, f', rfl, rfl, id, h, h'⟩

theorem native_eq (P : Paired m m') (name : String) : m.native? name = m'.native? name := by
  rw [native?, native?, P.natives]

theorem name_eq (P : Paired m m') (h : m.Counterpart m' f f') : f'.name = f.name := by
  simp only [Function.name, (P.signature f f' h).1]

end Paired

def StartsAlike (rel : Activation → Activation → Prop) (f f' : Function) : Prop :=
  ∀ args d, (Activation.start? f args d = none ∧ Activation.start? f' args d = none) ∨
    ∃ a a', Activation.start? f args d = some a ∧ Activation.start? f' args d = some a' ∧ rel a a'

/-- Related activations take the same step, each behind steps that the other does not take. -/
def StepsAlike (m m' : Machine) (rel : Activation → Activation → Prop) : Prop :=
  ∀ a a' w w', rel a a' → w.untimed = w'.untimed → ∃ n b v n' b' v',
    m.Leads n a w b v ∧ m'.Leads n' a' w' b' v' ∧ v.untimed = v'.untimed ∧
    Alike m m' rel b b' (m.turn b v) (m'.turn b' v')

structure Simulation (m m' : Machine) (rel : Activation → Activation → Prop) : Prop
    extends Paired m m' where
  start : ∀ f f', m.Counterpart m' f f' → f.native = false → StartsAlike rel f f'
  turn : StepsAlike m m' rel

namespace Simulation

theorem symm (S : Simulation m m' rel) : Simulation m' m (flip rel) where
  toPaired := S.toPaired.symm
  start f f' h hn args d := by
    have hn' : f'.native = false := by rw [(S.signature f' f h.symm).2, hn]
    rcases S.start f' f h.symm hn' args d with ⟨hs, hs'⟩ | ⟨a, a', hs, hs', ha⟩
    · exact .inl ⟨hs', hs⟩
    · exact .inr ⟨a', a, hs', hs, ha⟩
  turn a a' w w' ha hw := by
    obtain ⟨n, b, v, n', b', v', hl, hl', hv, ht⟩ := S.turn a' a w' w ha hw.symm
    exact ⟨n', b', v', n, b, v, hl', hl, hv.symm, ht.symm⟩

variable {n : Nat}

structure Forward (m m' : Machine) (rel : Activation → Activation → Prop) (n : Nat) : Prop where
  run : ∀ k < n, ∀ f f' args d w w', m.Counterpart m' f f' → w.untimed = w'.untimed →
    Finished (m.run k f args d w) →
    ∃ k', untimed (m'.run k' f' args d w') = untimed (m.run k f args d w)
  exec : ∀ k < n, ∀ a a' w w', rel a a' → w.untimed = w'.untimed → Finished (m.exec k a w) →
    ∃ k', untimed (m'.exec k' a' w') = untimed (m.exec k a w)
  invoke : ∀ k < n, ∀ f f' args d w w', m.Counterpart m' f f' → w.untimed = w'.untimed →
    Finished (m.invoke k f args d w) →
    ∃ k', untimed (m'.invoke k' f' args d w') = untimed (m.invoke k f args d w)

section

variable (S : Simulation m m' rel) (ih : Forward m m' rel n)

include S ih

theorem run_forward (args : List Value) (d : Nat) (hf : m.Counterpart m' f f')
    (hw : w.untimed = w'.untimed) (h : Finished (m.run n f args d w)) :
    ∃ k, untimed (m'.run k f' args d w') = untimed (m.run n f args d w) := by
  cases n with
  | zero => exact (h rfl).elim
  | succ n =>
    have hnat := (S.signature f f' hf).2
    rw [Machine.run] at h ⊢
    by_cases hd : m.maxDepth < d
    · refine ⟨1, ?_⟩
      rw [Machine.run]
      simp only [← S.maxDepth, if_pos hd, S.toPaired.name_eq hf]
      simp [failIn, throw, throwThe, MonadExceptOf.throw, EStateM.throw, untimed, hw]
    · by_cases hn : f.native = true
      · simp only [if_neg hd, if_pos hn] at h ⊢
        obtain ⟨k, hk⟩ := ih.invoke n (Nat.lt_succ_self n) f f' args d w w' hf hw h
        refine ⟨k + 1, ?_⟩
        rw [Machine.run]
        simp only [← S.maxDepth, if_neg hd, ← hnat, if_pos hn, hk]
      · simp only [if_neg hd, if_neg hn] at h ⊢
        rcases S.start f f' hf (by simpa using hn) args d with ⟨hs, hs'⟩ | ⟨a, a', hs, hs', ha⟩
        · refine ⟨1, ?_⟩
          rw [Machine.run]
          simp only [← S.maxDepth, if_neg hd, ← hnat, if_neg hn, hs, hs', S.toPaired.name_eq hf]
          simp [failIn, throw, throwThe, MonadExceptOf.throw, EStateM.throw, untimed, hw]
        · simp only [hs] at h ⊢
          obtain ⟨k, hk⟩ := ih.exec n (Nat.lt_succ_self n) a a' w w' ha hw h
          refine ⟨k + 1, ?_⟩
          rw [Machine.run]
          simp only [← S.maxDepth, if_neg hd, ← hnat, if_neg hn, hs', hk]

theorem exec_forward (ha : rel a a') (hw : w.untimed = w'.untimed) (h : Finished (m.exec n a w)) :
    ∃ k, untimed (m'.exec k a' w') = untimed (m.exec n a w) := by
  obtain ⟨_, b, v, _, b', v', hl, hl', hv, ht⟩ := S.turn a a' w w' ha hw
  obtain ⟨j, hj, he⟩ := hl.exec_end h
  rw [← he] at h ⊢
  -- It is enough to end behind the steps that only the right side takes.
  suffices hs : ∃ k, untimed (m'.exec k b' v') = untimed (m.exec j b v) by
    obtain ⟨k, hk⟩ := hs
    obtain ⟨k', hk'⟩ := hl'.exec_start (finished_of_untimed hk.symm h)
    exact ⟨k', by rw [hk', hk]⟩
  cases j with
  | zero => exact (h rfl).elim
  | succ j =>
    have hlt : j < n := by omega
    generalize htl : m.turn b v = t at ht
    generalize htr : m'.turn b' v' = t' at ht
    cases ht with
    | go hc hu =>
      rw [exec_go _ htl] at h ⊢
      obtain ⟨k, hk⟩ := ih.exec j hlt _ _ _ _ hc hu h
      exact ⟨k + 1, by rw [exec_go _ htr, hk]⟩
    | @call f f' args hf hd hx =>
      rw [exec_call _ htl] at h ⊢
      cases hr : m.invoke j f args (b.depth + 1) v with
      | error e u =>
        rw [hr] at h
        obtain ⟨k, hk⟩ := ih.invoke j hlt _ _ args (b.depth + 1) v v' hf hv (by simpa [hr] using h)
        rw [hr] at hk
        obtain ⟨u', hk, hu⟩ := untimed_error hk
        exact ⟨k + 1, by rw [exec_call _ htr, ← hd, hk]; simp only [untimed, hu]⟩
      | ok x u =>
        rw [hr] at h
        obtain ⟨k, hk⟩ := ih.invoke j hlt _ _ args (b.depth + 1) v v' hf hv (by simp [hr])
        rw [hr] at hk
        obtain ⟨u', hk, hu⟩ := untimed_ok hk
        obtain ⟨k', hk'⟩ := ih.exec j hlt _ _ u u' (hx x) hu h
        have hi : m'.invoke (max k k') f' args (b'.depth + 1) v' = .ok x u' := by
          rw [← hd, invoke_mono (Nat.le_max_left k k') (by simp [hk]), hk]
        have he := exec_mono (Nat.le_max_right k k') (finished_of_untimed hk'.symm h)
        exact ⟨max k k' + 1, by rw [exec_call _ htr, hi]; exact (congrArg untimed he).trans hk'⟩
    | done x => exact ⟨1, by rw [exec_done _ htl, exec_done _ htr]; simp only [untimed, hv]⟩
    | fail e hu => exact ⟨1, by rw [exec_fail _ htl, exec_fail _ htr]; simp only [untimed, hu]⟩

theorem invoke_forward (args : List Value) (d : Nat) (hf : m.Counterpart m' f f')
    (hw : w.untimed = w'.untimed) (h : Finished (m.invoke n f args d w)) :
    ∃ k, untimed (m'.invoke k f' args d w') = untimed (m.invoke n f args d w) := by
  cases n with
  | zero => exact (h rfl).elim
  | succ n =>
    have hnat := (S.signature f f' hf).2
    have hname := S.toPaired.name_eq hf
    cases hn : f.native with
    | false =>
      rw [invoke_code _ _ _ hn] at h ⊢
      obtain ⟨k, hk⟩ := ih.run n (Nat.lt_succ_self n) f f' args d w w' hf hw h
      exact ⟨k + 1, by rw [invoke_code _ _ _ (hnat ▸ hn), hk]⟩
    | true =>
      have hn' : f'.native = true := hnat ▸ hn
      cases hb : m.native? f.name with
      | none =>
        refine ⟨1, ?_⟩
        rw [Machine.invoke, Machine.invoke, if_pos hn, if_pos hn', hname,
          ← S.toPaired.native_eq, hb]
        simp [failIn, throw, throwThe, MonadExceptOf.throw, EStateM.throw, untimed, hw]
      | some native =>
        rw [invoke_native _ _ _ hn hb] at h ⊢
        have hb' : m'.native? f'.name = some native := by rw [hname, ← S.toPaired.native_eq, hb]
        have hmono : ∀ k k', k ≤ k' → ∀ r args w, Finished (m'.answer k d r args w) →
            m'.answer k' d r args w = m'.answer k d r args w := by
          intro k k' hk r args w hw
          unfold answer at hw ⊢
          cases hr : m'.module.function? r.id with
          | none => rfl
          | some c =>
            rw [hr] at hw
            exact invoke_mono hk hw
        have hback : ∀ r args w w', w.untimed = w'.untimed → Finished (m.answer n d r args w) →
            ∃ k, untimed (m'.answer k d r args w') = untimed (m.answer n d r args w) := by
          intro r args w w' hw h
          unfold answer at h ⊢
          rcases S.toPaired.function_cases r.id with ⟨hr, hr'⟩ | ⟨c, c', hr, hr', hc⟩
          · exact ⟨0, by
              simp [hr, hr', failIn, throw, throwThe, MonadExceptOf.throw, EStateM.throw,
                untimed, hw]⟩
          · simp only [hr, hr'] at h ⊢
            exact ih.invoke n (Nat.lt_succ_self n) c c' args (d + 1) w w' hc hw h
        have hnote : (w.noteCall f.name args).untimed = (w'.noteCall f.name args).untimed := by
          obtain ⟨c, rfl⟩ := World.untimed_eq_iff.mp hw
          rfl
        obtain ⟨k, hk⟩ := Action.perform_alike S.idle S.idle' hmono hback f.name (native args)
          _ _ hnote h
        exact ⟨k + 1, by rw [invoke_native _ _ _ hn' hb', hname, hk]⟩

end

theorem forward (S : Simulation m m' rel) (n : Nat) : Forward m m' rel n := by
  induction n with
  | zero =>
    exact ⟨fun _ h => (Nat.not_lt_zero _ h).elim, fun _ h => (Nat.not_lt_zero _ h).elim,
      fun _ h => (Nat.not_lt_zero _ h).elim⟩
  | succ n ih =>
    refine ⟨fun k hk f f' args d w w' hf hw h => ?_, fun k hk a a' w w' ha hw h => ?_,
      fun k hk f f' args d w w' hf hw h => ?_⟩
    · rcases Nat.lt_succ_iff_lt_or_eq.mp hk with hk | rfl
      · exact ih.run k hk f f' args d w w' hf hw h
      · exact S.run_forward ih args d hf hw h
    · rcases Nat.lt_succ_iff_lt_or_eq.mp hk with hk | rfl
      · exact ih.exec k hk a a' w w' ha hw h
      · exact S.exec_forward ih ha hw h
    · rcases Nat.lt_succ_iff_lt_or_eq.mp hk with hk | rfl
      · exact ih.invoke k hk f f' args d w w' hf hw h
      · exact S.invoke_forward ih args d hf hw h

end Simulation

def RunsAlike (m m' : Machine) : Prop :=
  (∀ id, m.module.function? id = none ↔ m'.module.function? id = none) ∧
  ∀ f f', m.Counterpart m' f f' → ∀ args d w,
    (∀ r, m.Ends f args d w r → ∃ r', m'.Ends f' args d w r' ∧ untimed r' = untimed r) ∧
    (∀ r', m'.Ends f' args d w r' → ∃ r, m.Ends f args d w r ∧ untimed r = untimed r')

theorem Simulation.runsAlike (S : Simulation m m' rel) : m.RunsAlike m' := by
  refine ⟨S.functions, fun f f' hf args d w => ⟨?_, ?_⟩⟩
  · rintro r ⟨hr, n, rfl⟩
    obtain ⟨k, hk⟩ := (S.forward (n + 1)).run n (Nat.lt_succ_self n) f f' args d w w hf rfl hr
    exact ⟨_, ⟨finished_of_untimed hk.symm hr, k, rfl⟩, hk⟩
  · rintro r ⟨hr, n, rfl⟩
    obtain ⟨k, hk⟩ := (S.symm.forward (n + 1)).run n (Nat.lt_succ_self n) f' f args d w w
      hf.symm rfl hr
    exact ⟨_, ⟨finished_of_untimed hk.symm hr, k, rfl⟩, hk⟩

theorem RunsAlike.refl (m : Machine) : m.RunsAlike m := by
  refine ⟨fun _ => Iff.rfl, ?_⟩
  rintro f f' ⟨id, hf, hf'⟩ args d w
  cases hf.symm.trans hf'
  exact ⟨fun r h => ⟨r, h, rfl⟩, fun r h => ⟨r, h, rfl⟩⟩

theorem RunsAlike.trans {m'' : Machine} (h : m.RunsAlike m') (h' : m'.RunsAlike m'') :
    m.RunsAlike m'' := by
  refine ⟨fun id => (h.1 id).trans (h'.1 id), ?_⟩
  rintro f f'' ⟨id, hf, hf''⟩ args d w
  cases hm : m'.module.function? id with
  | none => rw [(h.1 id).mpr hm] at hf; cases hf
  | some f' =>
    obtain ⟨hl, hr⟩ := h.2 f f' ⟨id, hf, hm⟩ args d w
    obtain ⟨hl', hr'⟩ := h'.2 f' f'' ⟨id, hm, hf''⟩ args d w
    constructor
    · intro r h
      obtain ⟨r', he, hu⟩ := hl r h
      obtain ⟨r'', he', hu'⟩ := hl' r' he
      exact ⟨r'', he', hu'.trans hu⟩
    · intro r'' h
      obtain ⟨r', he, hu⟩ := hr' r'' h
      obtain ⟨r, he', hu'⟩ := hr r' he
      exact ⟨r, he', hu'.trans hu⟩

theorem RunsAlike.diverges_iff (h : m.RunsAlike m')
    (hf : m.Counterpart m' f f') (args : List Value) (d : Nat) (w : World) :
    m.Diverges f args d w ↔ m'.Diverges f' args d w := by
  obtain ⟨hl, hr⟩ := h.2 f f' hf args d w
  constructor
  · intro hd r he
    obtain ⟨r', he', -⟩ := hr r he
    exact hd r' he'
  · intro hd r he
    obtain ⟨r', he', -⟩ := hl r he
    exact hd r' he'

def Matches (f f' : Function) : Prop :=
  ∃ rel, StartsAlike rel f f' ∧ ∀ m m', Paired m m' → StepsAlike m m' rel

theorem Paired.runsAlike (P : Paired m m')
    (h : ∀ f f', m.Counterpart m' f f' → f.native = false → Matches f f') : m.RunsAlike m' := by
  let rel a a' := ∃ r, r a a' ∧ ∀ m m', Paired m m' → StepsAlike m m' r
  suffices S : Simulation m m' rel from S.runsAlike
  refine { toPaired := P, start := fun f f' hf hn args d => ?_, turn := ?_ }
  · obtain ⟨r, hs, ht⟩ := h f f' hf hn
    rcases hs args d with hs | ⟨a, a', hs, hs', ha⟩
    · exact .inl hs
    · exact .inr ⟨a, a', hs, hs', r, ha, ht⟩
  · rintro a a' w w' ⟨r, ha, ht⟩ hw
    obtain ⟨n, b, v, n', b', v', hl, hl', hv, hb⟩ := ht m m' P a a' w w' ha hw
    exact ⟨n, b, v, n', b', v', hl, hl', hv, hb.mono fun _ _ h => ⟨r, h, ht⟩⟩

end Machine

end RealScript
