import RealScript.Proofs.Code.Renaming
import RealScript.Proofs.Lowering.Steps

/-! # The numbers of units and function literals

The names of units and function literals are numbered through a session. A renumbering gives them
other numbers and leaves all other names alone.
-/

namespace RealScript

open Lowering

theorem toString_nat_injective : Function.Injective (toString : Nat → String) := by
  intro m n h
  have h : Nat.toDigits 10 m = Nat.toDigits 10 n := by
    simpa [Nat.toString_eq_ofList_toDigits] using congrArg String.toList h
  rw [← Nat.ofDigitChars_ten_toDigits (n := m), h, Nat.ofDigitChars_ten_toDigits]

theorem unitName_injective : Function.Injective unitName := by
  intro m n h
  have h := congrArg String.toList h
  simp only [unitName, String.toList_append, List.append_cancel_left_eq] at h
  exact toString_nat_injective (String.toList_injective h)

theorem funcName_injective : Function.Injective funcName := by
  intro m n h
  have h := congrArg String.toList h
  simp only [funcName, String.toList_append, List.append_cancel_left_eq] at h
  exact toString_nat_injective (String.toList_injective h)

theorem unitName_ne_funcName (m n : Nat) : unitName m ≠ funcName n := by
  intro h
  have h := congrArg (fun s : String => s.toList.head?) h
  simp [unitName, funcName] at h

structure Renumbering where
  unit : Nat → Nat
  func : Nat → Nat
  unit_injective : Function.Injective unit
  func_injective : Function.Injective func

namespace Renumbering

variable (ρ : Renumbering)

open Classical in
/-- What becomes of a name. Names that carry no number stay as they are. -/
noncomputable def name (x : String) : String :=
  if h : ∃ n, x = unitName n then unitName (ρ.unit h.choose)
  else if h : ∃ n, x = funcName n then funcName (ρ.func h.choose)
  else x

@[simp]
theorem name_unitName (n : Nat) : ρ.name (unitName n) = unitName (ρ.unit n) := by
  have h : ∃ k, unitName n = unitName k := ⟨n, rfl⟩
  rw [name, dif_pos h, ← unitName_injective h.choose_spec]

@[simp]
theorem name_funcName (n : Nat) : ρ.name (funcName n) = funcName (ρ.func n) := by
  have h : ∃ k, funcName n = funcName k := ⟨n, rfl⟩
  have h' : ¬ ∃ k, funcName n = unitName k := fun ⟨k, hk⟩ => unitName_ne_funcName k n hk.symm
  rw [name, dif_neg h', dif_pos h, ← funcName_injective h.choose_spec]

theorem name_of_ne {x : String} (hu : ∀ n, x ≠ unitName n) (hf : ∀ n, x ≠ funcName n) :
    ρ.name x = x := by
  rw [name, dif_neg fun ⟨n, h⟩ => hu n h, dif_neg fun ⟨n, h⟩ => hf n h]

theorem name_of_plain {x : String} (h : Plain x) : ρ.name x = x :=
  ρ.name_of_ne (fun n he => not_plain_unitName n (he ▸ h)) fun n he => not_plain_funcName n (he ▸ h)

theorem name_cases (x : String) : (∃ n, x = unitName n) ∨ (∃ n, x = funcName n) ∨
    ((∀ n, x ≠ unitName n) ∧ ∀ n, x ≠ funcName n) := by
  by_cases hu : ∃ n, x = unitName n
  · exact .inl hu
  · by_cases hf : ∃ n, x = funcName n
    · exact .inr (.inl hf)
    · exact .inr (.inr ⟨fun n h => hu ⟨n, h⟩, fun n h => hf ⟨n, h⟩⟩)

theorem name_injective : Function.Injective ρ.name := by
  intro x y h
  rcases name_cases x with ⟨m, rfl⟩ | ⟨m, rfl⟩ | ⟨hu, hf⟩ <;>
    rcases name_cases y with ⟨n, rfl⟩ | ⟨n, rfl⟩ | ⟨hu', hf'⟩
  · simp only [name_unitName] at h
    rw [ρ.unit_injective (unitName_injective h)]
  · simp only [name_unitName, name_funcName] at h
    exact absurd h (unitName_ne_funcName _ _)
  · rw [name_unitName, ρ.name_of_ne hu' hf'] at h
    exact absurd h.symm (hu' _)
  · simp only [name_unitName, name_funcName] at h
    exact absurd h.symm (unitName_ne_funcName _ _)
  · simp only [name_funcName] at h
    rw [ρ.func_injective (funcName_injective h)]
  · rw [name_funcName, ρ.name_of_ne hu' hf'] at h
    exact absurd h.symm (hf' _)
  · rw [name_unitName, ρ.name_of_ne hu hf] at h
    exact absurd h (hu _)
  · rw [name_funcName, ρ.name_of_ne hu hf] at h
    exact absurd h (hf _)
  · rwa [ρ.name_of_ne hu hf, ρ.name_of_ne hu' hf'] at h

end Renumbering

def Scopes.rename (ρ : String → String) (sc : Scopes) : Scopes :=
  { sc with inner := sc.inner.map fun f => { f with owner := f.owner.rename ρ } }

def Cause.rename (ρ : String → String) : Cause → Cause
  | .backend e => .backend (e.rename ρ)
  | c => c

def LowerFailure.rename (ρ : String → String) : LowerFailure → LowerFailure
  | .diagnostic d => .diagnostic { d with cause := d.cause.rename ρ }
  | .misuse m => .misuse m

/-- The names of a state in new numbers. The numbers that come next are those of the state. -/
noncomputable def Lowering.renumber (ρ : Renumbering) (s : Lowering) : Lowering :=
  { s with
    builder := s.builder.rename ρ.name
    scopes := s.scopes.rename ρ.name
    created := s.created.map (·.rename ρ.name) }

noncomputable def CodeUnit.renumber (ρ : Renumbering) (u : CodeUnit) : CodeUnit :=
  { u with
    entry := u.entry.rename ρ.name
    functions := u.functions.map (·.rename ρ.name) }

/-- A renumbering together with the numbers that come next: `units` is that of the next unit, and
literals are numbered on from `there` as they are from `here` without it. -/
structure Counted extends Renumbering where
  units : Nat
  here : Nat
  there : Nat

def Counted.Covers (ρ : Counted) (n : Nat) : Prop :=
  ∀ k, ρ.here ≤ k → k < n → ρ.func k = k - ρ.here + ρ.there

theorem Counted.Covers.mono {ρ : Counted} {m n : Nat} (h : ρ.Covers n) (hmn : m ≤ n) : ρ.Covers m :=
  fun k hk hm => h k hk (Nat.lt_of_lt_of_le hm hmn)

noncomputable def Lowering.along (ρ : Counted) (s : Lowering) : Lowering :=
  { s.renumber ρ.toRenumbering with nextUnit := ρ.units, nextFunc := s.nextFunc - ρ.here + ρ.there }

end RealScript
