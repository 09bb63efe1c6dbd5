import RealScript.Proofs.Lowering.Sessions

/-! # Units are transactions

A unit that cannot be lowered leaves a session as it was, and so does a unit that is undone.
Lowering the same programs in two sessions, one or both of which also have units that failed or were
undone, gives the same results up to the numbers in the names of units and function literals.
-/

namespace RealScript

namespace Lowering

/-- Two sessions that have the same units, apart from those that left nothing behind. -/
inductive Alongside : Lowering → Lowering → Prop where
  | start {s : Lowering} : s.Reachable → Alongside s s
  | unit {s s' : Lowering} {src : String} {p : Program} : Alongside s s' →
      Program.parse src = .ok p → Alongside (s.lower p).2 (s'.lower p).2
  | optimize {s s' : Lowering} (k : Nat) : Alongside s s' → Alongside (s.optimize k) (s'.optimize k)
  | left {s s' t : Lowering} : Alongside s s' → Detour [] s t → Alongside t s'
  | right {s s' t : Lowering} : Alongside s s' → Detour [] s' t → Alongside s t

/-- Results of lowering that are the same up to the numbers of units and literals. -/
def SameButNumbers (x y : Except LowerFailure CodeUnit × Lowering) : Prop :=
  ∃ z ρ σ, InNumbers ρ z x ∧ InNumbers σ z y

variable {s s' t : Lowering}

theorem Reachable.follows (h : s.Reachable) : ∃ c ρ, c.Settled ∧ Follows ρ c s := by
  induction h with
  | start hosts hm => exact ⟨_, _, hm.settled hosts, .start hm hosts⟩
  | unit _ hp ih =>
    obtain ⟨c, ρ, hc, h⟩ := ih
    have hp := namedAll_of_parse hp
    exact ⟨_, _, hc.lower_settled hp, (h.lower hc hp).1⟩
  | detour hr hd ih =>
    obtain ⟨c, ρ, hc, h⟩ := ih
    obtain ⟨-, hu, hf⟩ := hd.restores hr.settled
    exact ⟨c, ρ, hc, h.restores (hd.restores_nil hr.settled) hu hf⟩
  | optimize k _ ih =>
    obtain ⟨c, ρ, hc, h⟩ := ih
    exact ⟨_, ρ, hc.optimize k, h.optimize k⟩

theorem Alongside.reachable (h : Alongside s s') : s.Reachable ∧ s'.Reachable := by
  induction h with
  | start h => exact ⟨h, h⟩
  | unit _ hp ih => exact ⟨ih.1.unit hp, ih.2.unit hp⟩
  | optimize k _ ih => exact ⟨ih.1.optimize k, ih.2.optimize k⟩
  | left _ hd ih => exact ⟨ih.1.detour hd, ih.2⟩
  | right _ hd ih => exact ⟨ih.1, ih.2.detour hd⟩

theorem Alongside.follows (h : Alongside s s') :
    ∃ c ρ σ, c.Settled ∧ Follows ρ c s ∧ Follows σ c s' := by
  induction h with
  | start h =>
    obtain ⟨c, ρ, hc, h⟩ := h.follows
    exact ⟨c, ρ, ρ, hc, h, h⟩
  | unit _ hp ih =>
    obtain ⟨c, ρ, σ, hc, h, h'⟩ := ih
    have hp := namedAll_of_parse hp
    exact ⟨_, _, _, hc.lower_settled hp, (h.lower hc hp).1, (h'.lower hc hp).1⟩
  | optimize k _ ih =>
    obtain ⟨c, ρ, σ, hc, h, h'⟩ := ih
    exact ⟨_, ρ, σ, hc.optimize k, h.optimize k, h'.optimize k⟩
  | left ha hd ih =>
    obtain ⟨c, ρ, σ, hc, h, h'⟩ := ih
    have hs := ha.reachable.1.settled
    obtain ⟨-, hu, hf⟩ := hd.restores hs
    exact ⟨c, ρ, σ, hc, h.restores (hd.restores_nil hs) hu hf, h'⟩
  | right ha hd ih =>
    obtain ⟨c, ρ, σ, hc, h, h'⟩ := ih
    have hs := ha.reachable.2.settled
    obtain ⟨-, hu, hf⟩ := hd.restores hs
    exact ⟨c, ρ, σ, hc, h, h'.restores (hd.restores_nil hs) hu hf⟩

theorem Alongside.sameButNumbers (h : Alongside s s') {p : Program} (hp : Node.NamedAll Plain p) :
    SameButNumbers (s.lower p) (s'.lower p) := by
  obtain ⟨c, ρ, σ, hc, hs, hs'⟩ := h.follows
  exact ⟨_, _, _, (hs.lower hc hp).2, (hs'.lower hc hp).2⟩

/-- Units are transactions. A unit that fails leaves the state as it was. A unit that succeeds can
be undone, whatever units failed or were undone in between and whether or not its functions were
optimised. Nor do such units change what is lowered later on, up to numbers. -/
theorem Reachable.transactional (hs : s.Reachable) {src : String} {p : Program}
    (hp : Program.parse src = .ok p) :
    (∀ e t, s.lower p = (.error e, t) → t.Restores s) ∧
    (∀ u t t', s.lower p = (.ok u, t) → Detour u.functions t t' → (t'.rollback u).Restores s) ∧
    (∀ s', Alongside s s' → SameButNumbers (s.lower p) (s'.lower p)) := by
  have hnames := namedAll_of_parse hp
  have hlower := hs.settled.lower hnames
  refine ⟨fun e t h => ?_, fun u t t' h hd => ?_, fun s' h => h.sameButNumbers hnames⟩
  · rwa [h] at hlower
  · rw [h] at hlower
    obtain ⟨⟨t₁, ho, hr⟩, -⟩ := hd.restores hlower.1
    exact ((hlower.2.optimized ho).restores hr).rollback hs.settled

/-- A session with one definition, a program that defines a function and then fails, and a program
that only defines it and is rolled back. -/
theorem transactional_definition :
    let s := ((Lowering.ofModule { name := "do" } []).lower
      [.funcDef ⟨1, 1⟩ "f" ["a"] [.ident ⟨1, 13⟩ "a"]]).2
    let p : Program := [.funcDef ⟨1, 1⟩ "g" [] [], .ident ⟨1, 13⟩ "x"]
    let q : Program := [.funcDef ⟨1, 1⟩ "g" [] []]
    (s.Reachable ∧ Program.parse "func g() \x7b\x7d x" = .ok p ∧
      Program.parse "func g() \x7b\x7d" = .ok q) ∧
    (∃ e t, s.lower p = (.error e, t) ∧ t.Restores s) ∧
    (∃ u t, s.lower q = (.ok u, t) ∧ (t.rollback u).Restores s) ∧
    (∀ s', Alongside s s' → SameButNumbers (s.lower p) (s'.lower p)) := by
  intro s p q
  have hs : s.Reachable := by
    have hf : Program.parse "func f(a) \x7b a \x7d" =
        .ok [.funcDef ⟨1, 1⟩ "f" ["a"] [.ident ⟨1, 13⟩ "a"]] := by cbv
    exact .unit (.start [] (.empty "do")) hf
  have hp : Program.parse "func g() \x7b\x7d x" = .ok p := by cbv
  have hq : Program.parse "func g() \x7b\x7d" = .ok q := by cbv
  have hfails : (s.lower p).1.isOk = false := by decide +kernel
  have hlowers : (s.lower q).1.isOk = true := by decide +kernel
  obtain ⟨hfail, -, hsame⟩ := hs.transactional hp
  obtain ⟨-, hback, -⟩ := hs.transactional hq
  refine ⟨⟨hs, hp, hq⟩, ?_, ?_, hsame⟩
  · rcases hl : s.lower p with ⟨e | u, t⟩
    · exact ⟨e, t, rfl, hfail e t hl⟩
    · rw [hl] at hfails
      cases hfails
  · rcases hl : s.lower q with ⟨e | u, t⟩
    · rw [hl] at hlowers
      cases hlowers
    · exact ⟨u, t, rfl, hback u t t hl .none⟩

end Lowering

end RealScript
