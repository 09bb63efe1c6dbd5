import Mathlib
import RealScript.Machine.Exec

/-! # Runs that end

Fuel bounds the steps of a run. A run that ends has the same answer with more fuel, so what a run
ends with does not depend on fuel, and a run that ends with no fuel at all diverges. A stretch of a
run leads from one point of an activation to a later one.
-/

namespace RealScript

variable {a act b : Activation} {f : Function} {args : List Value} {d k n : Nat} {v w : World}

def Finished {α : Type} : EStateM.Result Fault World α → Prop
  | .ok _ _ => True
  | .error e _ => e ≠ .outOfFuel

@[simp] theorem finished_ok {α : Type} (v : α) (w : World) :
    Finished (.ok v w : EStateM.Result Fault World α) := trivial

@[simp] theorem finished_error {α : Type} (e : Fault) (w : World) :
    Finished (.error e w : EStateM.Result Fault World α) ↔ e ≠ .outOfFuel := Iff.rfl

theorem callBack_mono {call call' : FuncRef → List Value → Exec Value}
    (hc : ∀ f args w, Finished (call f args w) → call' f args w = call f args w)
    (f : Option FuncRef) (args : List Value) (w : World) (h : Finished (callBack call f args w)) :
    callBack call' f args w = callBack call f args w := by
  cases f with
  | none => rfl
  | some f =>
    simp only [callBack] at h ⊢
    by_cases hl : args.length ≠ f.params.length
    · simp only [if_pos hl]
    · simp only [if_neg hl] at h ⊢
      rw [hc f args w]
      cases hr : call f args w with
      | ok => trivial
      | error e u =>
        rintro rfl
        rw [hr] at h
        exact h rfl

theorem Action.perform_mono {ctx : Context} {call call' : FuncRef → List Value → Exec Value}
    (hc : ∀ f args w, Finished (call f args w) → call' f args w = call f args w) (name : String)
    (a : Action) (w : World) (h : Finished (a.perform ctx call name w)) :
    a.perform ctx call' name w = a.perform ctx call name w := by
  induction a generalizing w with
  | done | fail | raise => rfl
  | attempt f args next ih =>
    simp only [perform] at h ⊢
    cases hr : callBack call f args w with
    | ok r u =>
      rw [hr] at h
      rw [callBack_mono hc f args w (by simp [hr]), hr]
      exact ih r u h
    | error e u =>
      rw [hr] at h
      rw [callBack_mono hc f args w (by simpa [hr] using h), hr]
  | proceed next ih =>
    simp only [perform] at h ⊢
    split at h
    · rfl
    · exact ih w h
  | enterPool next ih =>
    simp only [perform] at h ⊢
    split at h <;> rename_i hp
    · simp [hp]
    · simp only [hp]
      exact ih w h
  | write bytes next ih =>
    simp only [perform] at h ⊢
    split at h
    · exact ih _ h
    · rfl
  | read next ih =>
    simp only [perform] at h ⊢
    split at h
    · exact ih _ _ h
    · rfl
  | leave rest next ih => exact ih _ h

/-- The action fails whenever a function that it calls does, and as that function does. -/
def Action.Forwards : Action → Prop
  | .done _ | .fail _ | .raise _ => True
  | .attempt _ _ next => (∀ e, next (.error e) = .raise e) ∧ ∀ v, (next (.ok v)).Forwards
  | .proceed next | .enterPool next | .write _ next | .leave _ next => next.Forwards
  | .read next => ∀ words, (next words).Forwards

theorem Action.forwards_call {f : Option FuncRef} {args : List Value} {next : Value → Action}
    (h : ∀ v, (next v).Forwards) : (Action.call f args next).Forwards :=
  ⟨fun _ => rfl, h⟩

theorem Action.perform_attempt {next : Except RuntimeError Value → Action}
    (hnext : ∀ e, next (.error e) = .raise e) (ctx : Context)
    (call : FuncRef → List Value → Exec Value) (name : String) (f : FuncRef) (args : List Value)
    (w : World) :
    (Action.attempt (some f) args next).perform ctx call name w =
      if args.length ≠ f.params.length then
        .error (.runtime ⟨f.name, .argumentCount f.params.length args.length⟩) w
      else match call f args w with
        | .ok v u => (next (.ok v)).perform ctx call name u
        | .error e u => .error e u := by
  simp only [perform, callBack]
  by_cases hl : args.length ≠ f.params.length
  · simp only [if_pos hl, hnext]
    rfl
  · simp only [if_neg hl]
    cases call f args w with
    | ok => rfl
    | error e u =>
      cases e with
      | runtime e => simp only [hnext]; rfl
      | _ => rfl

namespace Machine

variable {m : Machine}

def Forwards (m : Machine) : Prop :=
  ∀ name native args, m.native? name = some native → (native args).Forwards

def answer (m : Machine) (fuel depth : Nat) (r : FuncRef) (args : List Value) : Exec Value :=
  match m.module.function? r.id with
  | none => failIn r.name .unbound
  | some callee => m.invoke fuel callee args (depth + 1)

theorem invoke_native {native : Native} (fuel : Nat) (args : List Value)
    (depth : Nat) (hf : f.native = true) (hn : m.native? f.name = some native) (w : World) :
    m.invoke (fuel + 1) f args depth w =
      (native args).perform m.context (m.answer fuel depth) f.name (w.noteCall f.name args) := by
  rw [invoke, if_pos hf, hn]
  rfl

theorem invoke_code (fuel : Nat) (args : List Value) (depth : Nat)
    (hf : f.native = false) : m.invoke (fuel + 1) f args depth = m.run fuel f args depth := by
  rw [invoke, if_neg (by simp [hf])]

theorem exec_go (n : Nat) (h : m.turn act w = .go b v) : m.exec (n + 1) act w = m.exec n b v := by
  rw [exec]
  simp only [h]

theorem exec_call (n : Nat) (h : m.turn act w = .call f args) :
    m.exec (n + 1) act w = match m.invoke n f args (act.depth + 1) w with
      | .ok x v => m.exec n (act.receive x) v
      | .error e v => .error e v := by
  rw [exec]
  cases hi : m.invoke n f args (act.depth + 1) w <;> simp only [h, hi]

theorem exec_done {x : Value} (n : Nat)
    (h : m.turn act w = .done x) : m.exec (n + 1) act w = .ok x w := by
  rw [exec]
  simp only [h]

theorem exec_fail {e : Fault} (n : Nat)
    (h : m.turn act w = .fail e v) : m.exec (n + 1) act w = .error e v := by
  rw [exec]
  simp only [h]

theorem fuel_succ (n : Nat) : (∀ f args d w, Finished (m.run n f args d w) →
      m.run (n + 1) f args d w = m.run n f args d w) ∧
    (∀ act w, Finished (m.exec n act w) → m.exec (n + 1) act w = m.exec n act w) ∧
    (∀ f args d w, Finished (m.invoke n f args d w) →
      m.invoke (n + 1) f args d w = m.invoke n f args d w) := by
  induction n with
  | zero =>
    exact ⟨fun _ _ _ _ h => (h rfl).elim, fun _ _ h => (h rfl).elim, fun _ _ _ _ h => (h rfl).elim⟩
  | succ n ih =>
    obtain ⟨ihr, ihe, ihi⟩ := ih
    refine ⟨fun f args d w h => ?_, fun act w h => ?_, fun f args d w h => ?_⟩
    · rw [run] at h ⊢
      rw [run]
      by_cases hd : m.maxDepth < d
      · simp only [if_pos hd]
      · by_cases hn : f.native = true
        · simp only [if_neg hd, if_pos hn] at h ⊢
          exact ihi f args d w h
        · simp only [if_neg hd, if_neg hn] at h ⊢
          cases hs : Activation.start? f args d with
          | none => rfl
          | some act =>
            simp only [hs] at h ⊢
            exact ihe act w h
    · cases ht : m.turn act w with
      | go b v =>
        rw [exec_go _ ht] at h ⊢
        rw [exec_go _ ht]
        exact ihe b v h
      | call f args =>
        rw [exec_call _ ht] at h ⊢
        rw [exec_call _ ht]
        cases hr : m.invoke n f args (act.depth + 1) w with
        | ok x v =>
          rw [hr] at h
          rw [ihi _ _ _ _ (by simp [hr]), hr]
          exact ihe _ v h
        | error e v =>
          rw [hr] at h
          rw [ihi _ _ _ _ (by simpa [hr] using h), hr]
      | done x => rw [exec_done _ ht, exec_done _ ht]
      | fail e v => rw [exec_fail _ ht, exec_fail _ ht]
    · cases hf : f.native with
      | false =>
        rw [invoke_code _ _ _ hf] at h ⊢
        rw [invoke_code _ _ _ hf]
        exact ihr f args d w h
      | true =>
        cases hn : m.native? f.name with
        | none => rw [invoke, invoke, if_pos hf, if_pos hf, hn]
        | some native =>
          rw [invoke_native _ _ _ hf hn] at h ⊢
          rw [invoke_native _ _ _ hf hn]
          refine Action.perform_mono (fun r args w hw => ?_) _ _ _ h
          unfold answer at hw ⊢
          cases hr : m.module.function? r.id with
          | none => rfl
          | some callee =>
            rw [hr] at hw
            exact ihi _ _ _ _ hw

theorem run_mono (hk : n ≤ k)
    (h : Finished (m.run n f args d w)) : m.run k f args d w = m.run n f args d w := by
  induction hk with
  | refl => rfl
  | step _ ih => rw [← ih]; exact (fuel_succ _).1 _ _ _ _ (by rwa [ih])

theorem exec_mono (hk : n ≤ k)
    (h : Finished (m.exec n act w)) : m.exec k act w = m.exec n act w := by
  induction hk with
  | refl => rfl
  | step _ ih => rw [← ih]; exact (fuel_succ _).2.1 _ _ (by rwa [ih])

theorem invoke_mono (hk : n ≤ k) (h : Finished (m.invoke n f args d w)) :
    m.invoke k f args d w = m.invoke n f args d w := by
  induction hk with
  | refl => rfl
  | step _ ih => rw [← ih]; exact (fuel_succ _).2.2 _ _ _ _ (by rwa [ih])

theorem invoke_unique
    (hn : Finished (m.invoke n f args d w)) (hk : Finished (m.invoke k f args d w)) :
    m.invoke n f args d w = m.invoke k f args d w := by
  rcases Nat.le_total n k with h | h
  · exact (invoke_mono h hn).symm
  · exact invoke_mono h hk

def Ends (m : Machine) (f : Function) (args : List Value) (depth : Nat) (w : World)
    (r : EStateM.Result Fault World Value) : Prop :=
  Finished r ∧ ∃ n, m.run n f args depth w = r

def Diverges (m : Machine) (f : Function) (args : List Value) (depth : Nat) (w : World) : Prop :=
  ∀ r, ¬ m.Ends f args depth w r

inductive Leads (m : Machine) : Nat → Activation → World → Activation → World → Prop where
  | refl (a : Activation) (w : World) : Leads m 0 a w a w
  | go {n : Nat} {a b c : Activation} {w v u : World} : m.turn a w = .go b v →
      Leads m n b v c u → Leads m (n + 1) a w c u
  | call {n k : Nat} {a c : Activation} {w v u : World} {f : Function} {args : List Value}
      {x : Value} : m.turn a w = .call f args → m.invoke k f args (a.depth + 1) w = .ok x v →
      Leads m n (a.receive x) v c u → Leads m (n + 1) a w c u

theorem Leads.single (h : m.turn a w = .go b v) : m.Leads 1 a w b v := .go h (.refl _ _)

theorem Leads.exec_start (h : m.Leads n a w b v)
    (hk : Finished (m.exec k b v)) : ∃ k', m.exec k' a w = m.exec k b v := by
  induction h with
  | refl => exact ⟨k, rfl⟩
  | go ht _ ih =>
    obtain ⟨k', hk'⟩ := ih hk
    exact ⟨k' + 1, by rw [exec_go _ ht, hk']⟩
  | @call n j a c w v u f args x ht hi _ ih =>
    obtain ⟨k', hk'⟩ := ih hk
    have hi' : m.invoke (max j k') f args (a.depth + 1) w = .ok x v := by
      rw [invoke_mono (Nat.le_max_left j k') (by simp [hi]), hi]
    have he : m.exec (max j k') (a.receive x) v = m.exec k' (a.receive x) v :=
      exec_mono (Nat.le_max_right j k') (by rwa [hk'])
    refine ⟨max j k' + 1, ?_⟩
    rw [exec_call _ ht, hi']
    exact he.trans hk'

theorem Leads.exec_end (h : m.Leads n a w b v)
    (hk : Finished (m.exec k a w)) : ∃ k', k' + n ≤ k ∧ m.exec k' b v = m.exec k a w := by
  induction h generalizing k with
  | refl => exact ⟨k, Nat.le_refl _, rfl⟩
  | go ht _ ih =>
    cases k with
    | zero => exact (hk rfl).elim
    | succ k =>
      rw [exec_go _ ht] at hk ⊢
      obtain ⟨k', hle, hk'⟩ := ih hk
      exact ⟨k', by omega, hk'⟩
  | @call n j a c w v u f args x ht hi _ ih =>
    cases k with
    | zero => exact (hk rfl).elim
    | succ k =>
      rw [exec_call _ ht] at hk ⊢
      have hf : Finished (m.invoke k f args (a.depth + 1) w) := by
        cases hr : m.invoke k f args (a.depth + 1) w with
        | ok => trivial
        | error e u => simpa [hr] using hk
      have hr : m.invoke k f args (a.depth + 1) w = .ok x v := by
        rw [invoke_unique hf (k := j) (by simp [hi]), hi]
      rw [hr] at hk ⊢
      obtain ⟨k', hle, hk'⟩ := ih hk
      exact ⟨k', by omega, hk'⟩

end Machine

end RealScript
