import RealScript.Proofs.Lowering.Undo

/-! # Units

What lowering a unit does to a session: when it fails, the session is as before, and when it
succeeds, the functions, globals and names of the unit stand on top of those from before.
-/

namespace RealScript

namespace Lower

open Lowering

variable {s : Lowering}

theorem unit_goes (hs : s.Settled) (p : Program) (hp : Node.NamedAll Plain p) (n : Nat) :
    Goes (unit p (unitName n)) s fun f t => f ∈ t.created ∧ t.builder.point = none ∧
      t.scopes.inner = [] ∧ t.depth = 0 := by
  unfold unit
  refine .bind (Q := fun f t => f = (Function.opened s.module.store.size (unitName n) []).ref ∧
    t = s.push (.opened s.module.store.size (unitName n) [])
      (some ⟨s.module.store.size, 0, "entry"⟩)) ?_ ?_
  · refine .of_run (fun f t h => ?_) fun e t h => ?_
    · obtain ⟨hfree, rfl, rfl⟩ := define_eq_ok hs.orderly h
      exact ⟨.single (.define hfree fun h => absurd h (not_plain_unitName n)), rfl, rfl⟩
    · rw [define_eq_error hs.orderly h]
      exact .refl
  · rintro f t hsteps ⟨rfl, rfl⟩
    have hready : Ready s.module.store.size false
      (s.push (.opened s.module.store.size (unitName n) [])
        (some ⟨s.module.store.size, 0, "entry"⟩)) := by
      refine ⟨hs.orderly.steps hsteps, rfl, ?_, fun _ => hs.depth, by simp⟩
      simp [push, hs.inner]
    have hbody : Progress s.module.store.size false
        (lowerAll p >>= fun _ => closeFunction >>= fun _ =>
          verify {} (Function.opened s.module.store.size (unitName n) []).ref) fun _ => True := by
      refine (lowerAll_progress p hp _ _).bind fun _ _ => ?_
      exact closeFunction_progress.bind fun _ _ => verify_progress _ _
    have hend := (hbody _ hready).bind (f := fun _ => do
        build (.moveTo none)
        return (Function.opened s.module.store.size (unitName n) []).ref)
      (P := fun f t => f ∈ t.created ∧ t.builder.point = none ∧ t.scopes.inner = [] ∧ t.depth = 0)
      ?_
    · simpa only [bind_assoc] using hend
    · rintro _ t ht ⟨ha, -⟩
      refine .bind (Q := fun _ u => u = { t with builder := { t.builder with point := none } })
        ⟨.single (.moveTo (by simp)), rfl⟩ ?_
      rintro - u - rfl
      have hscopes := ha.scopes
      simp only [Scopes.Extends, push, hs.inner] at hscopes
      refine .pure ⟨(Steps.created ht).subset ?_, rfl, hscopes.1, ha.depth.trans hs.depth⟩
      simp [push]

end Lower

namespace Lowering

variable {s t t' : Lowering} {u : CodeUnit}

theorem Restores.refl (s : Lowering) : s.Restores s := rfl

theorem Restores.trans (h : t.Restores s) (h' : t'.Restores t) : t'.Restores s := by
  unfold Restores at h h' ⊢
  rw [h', h]

theorem Settled.restores (h : s.Settled) (ht : t.Restores s) : t.Settled := by
  rw [ht]
  exact ⟨h.numbered, h.complete, h.distinct, h.last, h.point, h.inner, h.depth, h.created⟩

structure Tops (s : Lowering) (u : CodeUnit) (t : Lowering) : Prop where
  before : u.before = s.checkpoint
  touched : s.Touched { t with created := u.functions }
  numbered : t.module.Numbered
  distinct : (t.module.refs.map (·.name)).Nodup

theorem Tops.rollback (h : s.Tops u t) (hs : s.Settled) : (t.rollback u).Restores s := by
  have := h.touched.undo h.numbered h.distinct hs
  rwa [← h.before] at this

theorem Tops.restores (h : s.Tops u t) (ht : t'.Restores t) : s.Tops u t' := by
  rw [ht]
  exact ⟨h.before, ⟨h.touched.name, h.touched.loose, h.touched.hosts, h.touched.size, h.touched.old,
    h.touched.created, h.touched.listed, h.touched.globals, h.touched.names⟩,
      h.numbered, h.distinct⟩

theorem Touched.last (h : s.Touched t) (hne : t.created ≠ []) :
    ∀ f ∈ t.module.store.back?, f.listed = true := by
  intro f hf
  refine h.listed (t.module.store.size - 1) f ?_ hf
  have : t.module.store.toList.drop s.module.store.size ≠ [] := fun he =>
    hne (by rw [h.created, he]; rfl)
  have := List.drop_eq_nil_iff.not.mp this
  simp only [Array.length_toList] at this
  omega

theorem Settled.lower (hs : s.Settled) {p : Program} (hp : Node.NamedAll Plain p) :
    match s.lower p with
    | (.error _, t) => t.Restores s
    | (.ok u, t) => t.Settled ∧ s.Tops u t := by
  have hstart : Settled { s with nextUnit := s.nextUnit + 1, created := [] } :=
    ⟨hs.numbered, hs.complete, hs.distinct, hs.last, hs.point, hs.inner, hs.depth, rfl⟩
  have hgoes := Lower.unit_goes hstart p hp s.nextUnit
  have htouched := Touched.refl (s := { s with nextUnit := s.nextUnit + 1, created := [] }) rfl
  unfold Lowering.lower
  cases h : Lower.unit p (unitName s.nextUnit)
      { s with nextUnit := s.nextUnit + 1, created := [] } with
  | error e t =>
    have hsteps := hgoes.error h
    have ho := hstart.orderly.steps hsteps
    have hnumbers : Restores { s with nextUnit := s.nextUnit + 1, created := [] } s := by
      unfold Restores
      rw [← hs.created]
    exact hnumbers.trans
      ((htouched.steps hstart.orderly hsteps).undo ho.numbered ho.distinct hstart)
  | ok f t =>
    obtain ⟨hsteps, hf, hpoint, hinner, hdepth⟩ := hgoes.ok h
    have ho := hstart.orderly.steps hsteps
    have ht := htouched.steps hstart.orderly hsteps
    have hlast := ht.last (List.ne_nil_of_mem hf)
    exact ⟨⟨ho.numbered, ho.complete, ho.distinct, hlast, hpoint, hinner, hdepth, rfl⟩, rfl,
      ⟨ht.name, ht.loose, ht.hosts, ht.size, ht.old, ht.created, ht.listed,
      ht.globals, ht.names⟩, ho.numbered, ho.distinct⟩

theorem Settled.lower_counters (hs : s.Settled) {p : Program} (hp : Node.NamedAll Plain p) :
    (s.lower p).2.nextUnit = s.nextUnit + 1 ∧ s.nextFunc ≤ (s.lower p).2.nextFunc := by
  have hstart : Settled { s with nextUnit := s.nextUnit + 1, created := [] } :=
    ⟨hs.numbered, hs.complete, hs.distinct, hs.last, hs.point, hs.inner, hs.depth, rfl⟩
  have hgoes := Lower.unit_goes hstart p hp s.nextUnit
  unfold Lowering.lower
  cases h : Lower.unit p (unitName s.nextUnit)
      { s with nextUnit := s.nextUnit + 1, created := [] } with
  | error e t => exact Steps.counters (hgoes.error h)
  | ok f t => exact Steps.counters (hgoes.ok h).1

end Lowering

end RealScript
