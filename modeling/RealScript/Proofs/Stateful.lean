import Mathlib

/-! # Computations that may fail

How the parts of a computation that may fail, with or without a state, show in its result.
-/

namespace RealScript.Stateful

variable {ε σ α β : Type}

theorem bind_run (x : EStateM ε σ α) (f : α → EStateM ε σ β) (s : σ) : (x >>= f) s = match x s with
      | .ok a t => f a t
      | .error e t => .error e t := by
  simp only [bind, EStateM.bind]
  cases x s <;> rfl

theorem pure_run (a : α) (s : σ) : (pure a : EStateM ε σ α) s = .ok a s := rfl

theorem get_run (s : σ) : (get : EStateM ε σ σ) s = .ok s s := rfl

theorem set_run (s t : σ) : (set t : EStateM ε σ PUnit) s = .ok ⟨⟩ t := rfl

theorem throw_run (e : ε) (s : σ) : (throw e : EStateM ε σ α) s = .error e s := rfl

theorem bind_eq_ok {x : EStateM ε σ α} {f : α → EStateM ε σ β} {s t : σ} {b : β}
    (h : (x >>= f) s = .ok b t) : ∃ a u, x s = .ok a u ∧ f a u = .ok b t := by
  rw [bind_run] at h
  cases hx : x s with
  | ok a u => exact ⟨a, u, rfl, by rwa [hx] at h⟩
  | error e u => rw [hx] at h; cases h

theorem bind_eq_error {x : EStateM ε σ α} {f : α → EStateM ε σ β} {s t : σ} {e : ε}
    (h : (x >>= f) s = .error e t) :
    x s = .error e t ∨ ∃ a u, x s = .ok a u ∧ f a u = .error e t := by
  rw [bind_run] at h
  cases hx : x s with
  | ok a u => exact .inr ⟨a, u, rfl, by rwa [hx] at h⟩
  | error e u => rw [hx] at h; cases h; exact .inl rfl

theorem except_bind_eq_ok {x : Except ε α} {f : α → Except ε β} {b : β}
    (h : (x >>= f) = .ok b) : ∃ a, x = .ok a ∧ f a = .ok b := by
  cases x with
  | ok a => exact ⟨a, rfl, h⟩
  | error e => cases h

theorem forM_eq_ok {g : α → Except ε Unit} {xs : List α} (h : xs.forM g = .ok ()) :
    ∀ x ∈ xs, g x = .ok () := by
  induction xs with
  | nil => simp
  | cons x xs ih =>
    change (g x >>= fun _ => xs.forM g) = .ok () at h
    obtain ⟨⟨⟩, hx, hxs⟩ := except_bind_eq_ok h
    intro y hy
    rcases List.mem_cons.mp hy with rfl | hy
    · exact hx
    · exact ih hxs y hy

theorem forM_run {g : α → EStateM ε σ Unit} {s : σ} {xs : List α}
    (h : ∀ x ∈ xs, g x s = .ok () s ∨ ∃ e, g x s = .error e s) :
    xs.forM g s = .ok () s ∨ ∃ e, xs.forM g s = .error e s := by
  induction xs with
  | nil => exact .inl rfl
  | cons x xs ih =>
    have hrun : (x :: xs).forM g s = (g x >>= fun _ => xs.forM g) s := rfl
    rw [hrun, bind_run]
    rcases h x List.mem_cons_self with hx | ⟨e, he⟩
    · rw [hx]
      exact ih fun y hy => h y (List.mem_cons_of_mem _ hy)
    · rw [he]
      exact .inr ⟨e, rfl⟩

end RealScript.Stateful
