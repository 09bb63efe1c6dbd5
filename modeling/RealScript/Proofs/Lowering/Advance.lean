import RealScript.Proofs.Lowering.Steps
import RealScript.Proofs.Tree.Names

/-! # Lowering goes by steps

Lowering a tree goes by steps, whether it succeeds or not. When it succeeds it comes back to the
function it started in, with the frames it started with: only the innermost one may hold more names.
-/

namespace RealScript

def Scopes.Extends (s t : Scopes) : Prop := match s.inner with
  | [] => t.inner = [] ∧ s.globals <+: t.globals
  | f :: outer =>
    t.globals = s.globals ∧ ∃ vars, t.inner = { f with vars := f.vars ++ vars } :: outer

namespace Scopes.Extends

variable {s t u : Scopes}

theorem refl (s : Scopes) : s.Extends s := by
  unfold Extends
  split
  · exact ⟨‹_›, List.prefix_rfl⟩
  · rename_i f outer h
    exact ⟨rfl, [], by simp [h]⟩

theorem trans (h : s.Extends t) (h' : t.Extends u) : s.Extends u := by
  unfold Extends at h
  split at h
  · rename_i hs
    obtain ⟨ht, hg⟩ := h
    simp only [Extends, ht] at h'
    simp only [Extends, hs]
    exact ⟨h'.1, hg.trans h'.2⟩
  · rename_i f outer hs
    obtain ⟨hg, vars, ht⟩ := h
    simp only [Extends, ht] at h'
    obtain ⟨hg', vars', hu⟩ := h'
    simp only [Extends, hs]
    exact ⟨hg'.trans hg, vars ++ vars', by rw [hu, List.append_assoc]⟩

theorem globals (h : s.Extends t) : s.globals <+: t.globals := by
  unfold Extends at h
  split at h
  · exact h.2
  · exact h.1 ▸ List.prefix_rfl

theorem leave {owner : FuncRef} (h : (s.enter owner).Extends t) : t.leave = s := by
  obtain ⟨hg, vars, ht⟩ := h
  obtain ⟨globals, inner⟩ := s
  obtain ⟨globals', inner'⟩ := t
  simp only [enter] at hg ht
  simp [Scopes.leave, hg, ht]

theorem inner_ne_nil {owner : FuncRef} (h : (s.enter owner).Extends t) : t.inner ≠ [] := by
  obtain ⟨-, vars, ht⟩ := h
  simp [ht]

theorem length_inner (h : s.Extends t) : t.inner.length = s.inner.length := by
  unfold Extends at h
  split at h
  · rename_i hs
    rw [h.1, hs]
  · rename_i hs
    obtain ⟨-, vars, ht⟩ := h
    rw [ht, hs]
    rfl

end Scopes.Extends

namespace Lowering

structure Advances (s t : Lowering) : Prop where
  fn : t.fn? = s.fn?
  scopes : s.scopes.Extends t.scopes
  depth : t.depth = s.depth

theorem Advances.refl (s : Lowering) : s.Advances s := ⟨rfl, .refl _, rfl⟩

theorem Advances.trans {s t u : Lowering} (h : s.Advances t) (h' : t.Advances u) : s.Advances u :=
  ⟨h'.fn.trans h.fn, h.scopes.trans h'.scopes, h'.depth.trans h.depth⟩

/-- Where a tree may be lowered: in a function of the unit, whose frame is the innermost one. Only
the entry can do without one, and does so where no frame is asked for. -/
structure Ready (fn : Nat) (framed : Bool) (s : Lowering) : Prop where
  orderly : s.Orderly
  inside : s.fn? = some fn
  owner : ∀ f ∈ s.scopes.inner.head?, f.owner.id = fn
  top : s.scopes.inner = [] → s.depth = 0
  frame : framed = true → s.scopes.inner ≠ []

variable {fn : Nat} {framed : Bool} {s t : Lowering}

theorem Ready.advance (h : s.Ready fn framed) (hs : Steps s t) (ha : s.Advances t) :
    t.Ready fn framed := by
  have hscopes := ha.scopes
  unfold Scopes.Extends at hscopes
  split at hscopes
  · rename_i hinner
    refine ⟨h.orderly.steps hs, ha.fn.trans h.inside, fun f hf => ?_, fun _ => ?_, fun hf => ?_⟩
    · rw [hscopes.1] at hf
      cases hf
    · exact ha.depth.trans (h.top hinner)
    · exact absurd hinner (h.frame hf)
  · rename_i f' outer hinner
    obtain ⟨-, vars, ht⟩ := hscopes
    have hne : t.scopes.inner ≠ [] := by simp [ht]
    refine ⟨h.orderly.steps hs, ha.fn.trans h.inside, fun f hf => ?_, fun h => absurd h hne,
      fun _ => hne⟩
    rw [ht] at hf
    cases hf
    exact h.owner f' (by rw [hinner]; rfl)

theorem Ready.function (h : s.Ready fn framed) :
    ∃ f, s.builder.function? = some f ∧ s.module.function? fn = some f ∧ f.id = fn := by
  obtain ⟨r, hr, rfl⟩ := Option.map_eq_some_iff.mp h.inside
  obtain ⟨f, hf, hid, -⟩ := h.orderly.function_of_point hr
  exact ⟨f, by simp [Builder.function?, hr, show s.builder.module.function? r.fn = some f from hf],
    hf, hid⟩

theorem Ready.lookup (h : s.Ready fn framed) {name : String} {slot : Slot}
    (hslot : s.scopes.lookup name = some slot) : s.scopes.globals.lookup name = some slot ∨
      ∃ frame ∈ s.scopes.inner, frame.owner.id = fn ∧ frame.vars.lookup name = some slot := by
  unfold Scopes.lookup at hslot
  split at hslot
  · exact .inl hslot
  · rename_i f _ hinner
    rcases Option.or_eq_some_iff.mp hslot with hl | ⟨-, hg⟩
    · obtain ⟨frame, hframe, hx⟩ := List.exists_of_findSome?_eq_some hl
      obtain ⟨hframe, ho⟩ := List.mem_filter.mp hframe
      refine .inr ⟨frame, hframe, ?_, hx⟩
      rw [show frame.owner.id = f.owner.id by simpa using ho]
      exact h.owner f (by rw [hinner]; rfl)
    · exact .inl hg

theorem Ready.mem_created (h : s.Ready fn framed) : ∃ f ∈ s.created, f.id = fn := by
  obtain ⟨r, hr, rfl⟩ := Option.map_eq_some_iff.mp h.inside
  exact h.orderly.point r hr

theorem Ready.enter (h : s.Ready fn framed) {owner : FuncRef} (ho : owner.id = fn) :
    Ready fn true { s with scopes := s.scopes.enter owner } := by
  refine ⟨h.orderly.step (.enter (h.inside.trans (by rw [ho]))), h.inside, ?_, (nomatch ·),
    fun _ => (nomatch ·)⟩
  intro f hf
  cases hf
  exact ho

end Lowering

namespace Lower

open Stateful Lowering

variable {α β : Type} {s t : Lowering} {fn : Nat} {framed : Bool}

/-- A computation goes by steps, and if it has a result, the result satisfies a condition. -/
def Goes (x : Lower α) (s : Lowering) (Q : α → Lowering → Prop) : Prop := match x s with
  | .ok a t => Steps s t ∧ Q a t
  | .error _ t => Steps s t

namespace Goes

variable {x : Lower α} {f : α → Lower β} {Q Q' : α → Lowering → Prop} {P : β → Lowering → Prop}

theorem ok (h : Goes x s Q) {a : α} (hx : x s = .ok a t) : Steps s t ∧ Q a t := by
  unfold Goes at h
  rwa [hx] at h

theorem error (h : Goes x s Q) {e : LowerFailure} (hx : x s = .error e t) : Steps s t := by
  unfold Goes at h
  rwa [hx] at h

theorem of_run (hok : ∀ a t, x s = .ok a t → Steps s t ∧ Q a t)
    (herror : ∀ e t, x s = .error e t → Steps s t) : Goes x s Q := by
  unfold Goes
  cases hx : x s with
  | ok a t => exact hok a t hx
  | error e t => exact herror e t hx

theorem mono (h : Goes x s Q) (hq : ∀ a t, Q a t → Q' a t) : Goes x s Q' :=
  of_run (fun _ _ hx => ⟨(h.ok hx).1, hq _ _ (h.ok hx).2⟩) fun _ _ hx => h.error hx

theorem pure {a : α} (h : Q a s) : Goes (pure a) s Q := ⟨.refl, h⟩

theorem throw (e : LowerFailure) : Goes (throw e : Lower α) s Q := Relation.ReflTransGen.refl

theorem of_modify {g : Lowering → Lowering} {Q : PUnit → Lowering → Prop} (hs : Steps s (g s))
    (h : Q ⟨⟩ (g s)) : Goes (modify g : Lower PUnit) s Q := ⟨hs, h⟩

theorem bind (hx : Goes x s Q) (hf : ∀ a t, Steps s t → Q a t → Goes (f a) t P) :
    Goes (x >>= f) s P := by
  refine of_run (fun b u hb => ?_) fun e u he => ?_
  · obtain ⟨a, t, ha, hb⟩ := bind_eq_ok hb
    obtain ⟨hs, hq⟩ := hx.ok ha
    exact ⟨hs.trans ((hf a t hs hq).ok hb).1, ((hf a t hs hq).ok hb).2⟩
  · rcases bind_eq_error he with he | ⟨a, t, ha, he⟩
    · exact hx.error he
    · obtain ⟨hs, hq⟩ := hx.ok ha
      exact hs.trans ((hf a t hs hq).error he)

theorem bind_ok {a : α} (hx : x s = .ok a s) (h : Goes (f a) s P) : Goes (x >>= f) s P := by
  have hg : Goes x s fun b t => b = a ∧ t = s := by
    unfold Goes
    rw [hx]
    exact ⟨.refl, rfl, rfl⟩
  exact hg.bind fun _ _ _ ⟨ha, ht⟩ => ha ▸ ht ▸ h

theorem bind_get {f : Lowering → Lower β} (h : Goes (f s) s P) : Goes (get >>= f) s P :=
  bind_ok rfl h

theorem modify_bind {g : Lowering → Lowering} {f : PUnit → Lower β} (hs : Steps s (g s))
    (h : Goes (f ⟨⟩) (g s) P) : Goes (modify g >>= f) s P :=
  bind (Q := fun _ t => t = g s) (.of_modify hs rfl) fun _ _ _ ht => ht ▸ h

theorem reject_bind {pos : Position} {cause : Cause} :
    Goes ((reject pos cause : Lower α) >>= f) s P :=
  bind (Q := fun _ _ => False) (.throw _) fun _ _ _ h => h.elim

end Goes

def Progress (fn : Nat) (framed : Bool) (x : Lower α) (Q : α → Prop) : Prop :=
  ∀ s, s.Ready fn framed → Goes x s fun a t => s.Advances t ∧ Q a

namespace Progress

variable {x : Lower α} {f : α → Lower β} {Q Q' : α → Prop} {P : β → Prop}

theorem bind (hx : Progress fn framed x Q) (hf : ∀ a, Q a → Progress fn framed (f a) P) :
    Progress fn framed (x >>= f) P := by
  intro s hr
  refine (hx s hr).bind fun a t hs ⟨ha, hq⟩ => ?_
  exact (hf a hq t (hr.advance hs ha)).mono fun b u ⟨hu, hp⟩ => ⟨ha.trans hu, hp⟩

theorem pure {a : α} (h : Q a) : Progress fn framed (pure a) Q := fun _ _ => .pure ⟨.refl _, h⟩

theorem throw (e : LowerFailure) : Progress fn framed (throw e : Lower α) Q := fun _ _ => .throw e

theorem reject (pos : Position) (cause : Cause) :
    Progress fn framed (reject pos cause : Lower α) Q := .throw _

end Progress

theorem build_run {op : Build α} {x : α} {b : Builder} (h : op s.builder = .ok x b) :
    build op s = .ok x { s with builder := b } := by
  simp only [build, h]

theorem build_eq_ok {op : Build α} {x : α} (h : build op s = .ok x t) :
    ∃ b, op s.builder = .ok x b ∧ t = { s with builder := b } := by
  unfold build at h
  split at h
  · cases h
    exact ⟨_, ‹_›, rfl⟩
  · cases h

theorem build_eq_error {op : Build α} {e : LowerFailure} (h : build op s = .error e t) :
    ∃ m b, op s.builder = .error m b ∧ t = { s with builder := b } := by
  unfold build at h
  split at h
  · cases h
  · cases h
    exact ⟨_, _, ‹_›, rfl⟩

theorem build_bind (x : Build α) (f : α → Build β) :
    build (x >>= f) = build x >>= fun a => build (f a) := by
  funext s
  simp only [build, bind_run]
  cases x s.builder <;> rfl

theorem build_goes {op : Build α} (ho : op.Offered) :
    Goes (build op) s fun x t => ∃ b, op s.builder = .ok x b ∧ t = { s with builder := b } := by
  refine .of_run (fun x t h => ?_) fun e t h => ?_
  · obtain ⟨b, hb, rfl⟩ := build_eq_ok h
    exact ⟨.single (.build ho hb), b, hb, rfl⟩
  · obtain ⟨m, b, hb, rfl⟩ := build_eq_error h
    obtain rfl := ho.eq_of_error hb
    exact .refl

theorem advances_build {b : Builder} (h : s.builder.Change b) :
    s.Advances { s with builder := b } :=
  ⟨by simp only [fn?, h.point], .refl _, rfl⟩

theorem build_progress {op : Build α} (ho : op.Offered) :
    Progress fn framed (build op) fun _ => True :=
  fun _ _ => (build_goes ho).mono fun _ _ ⟨_, hb, ht⟩ => ⟨ht ▸ advances_build (ho.change hb),
    trivial⟩

theorem createBlock_progress (name : String) :
    Progress fn framed (build (.createBlock name)) fun r => r.fn = fn := by
  intro s hr
  refine (build_goes (.createBlock name)).mono fun r t ⟨b, hb, ht⟩ => ?_
  refine ⟨ht ▸ advances_build ((Build.Offered.createBlock name).change hb), ?_⟩
  obtain ⟨point, f, hp, hf, rfl, -⟩ := Build.createBlock_eq_ok hb
  have hfn : point.fn = fn := by simpa [fn?, hp] using hr.inside
  exact (hr.orderly.numbered _ _ hf).trans hfn

theorem moveTo_progress {r : BlockRef} (h : r.fn = fn) :
    Progress fn framed (build (.moveTo (some r))) fun _ => True := by
  intro s hr
  refine ⟨.single (.moveTo fun r' hr' => ?_), ⟨?_, .refl _, rfl⟩, trivial⟩
  · cases hr'
    exact h ▸ hr.mem_created
  · exact (congrArg some h).trans hr.inside.symm

theorem currentFunction_run (hr : s.Ready fn framed) :
    ∃ f, currentFunction s = .ok f s ∧ f.id = fn ∧ ∃ g, s.module.function? fn = some g ∧
    g.ref = f := by
  obtain ⟨g, hg, hf, hid⟩ := hr.function
  refine ⟨g.ref, ?_, hid, g, hf, rfl⟩
  simp only [currentFunction, bind_run, get_run, hg, pure_run]

theorem currentFunction_progress : Progress fn framed currentFunction fun f => f.id = fn := by
  intro s hr
  obtain ⟨f, hf, hid, -⟩ := currentFunction_run hr
  unfold Goes
  rw [hf]
  exact ⟨.refl, .refl _, hid⟩

theorem function?_of_currentFunction {f : FuncRef} (h : currentFunction s = .ok f s) :
    s.builder.function?.map Function.ref = some f := by
  simp only [currentFunction, bind_run, get_run] at h
  cases hg : s.builder.function? with
  | none =>
    rw [hg] at h
    cases h
  | some g =>
    rw [hg] at h
    obtain ⟨rfl, -⟩ := EStateM.Result.ok.inj h
    rfl

theorem leave_run (h : s.scopes.inner ≠ []) :
    leave s = .ok () { s with scopes := s.scopes.leave } := by
  have hpop : s.scopes.pop = .ok s.scopes.leave := by
    rw [Scopes.pop, Scopes.atGlobal, List.isEmpty_eq_false_iff.mpr h]
    rfl
  simp only [leave, hpop]

theorem steps_leave : match leave s with | .ok _ t | .error _ t => Steps s t := by
  unfold leave
  cases hpop : s.scopes.pop with
  | error => exact .refl
  | ok scopes =>
    unfold Scopes.pop at hpop
    split at hpop <;> cases hpop
    exact .single .leave

theorem finally_run (x : Lower α) (z : Lower Unit) (s : Lowering) :
    (try x finally z) s = match x s with
      | .ok a t => (z >>= fun _ => pure a) t
      | .error e t => (z >>= fun _ => throw e) t := by
  simp only [tryFinally, tryFinally', Functor.map, EStateM.map]
  cases x s with
  | ok a t =>
    simp only [bind_run]
    cases z t <;> rfl
  | error e t =>
    simp only [bind_run]
    cases z t <;> rfl

theorem inFrame_run {x : Lower α} {f : FuncRef} (hf : currentFunction s = .ok f s) :
    inFrame x s = match x { s with scopes := s.scopes.enter f } with
      | .ok a t => (leave >>= fun _ => pure a) t
      | .error e t => (leave >>= fun _ => throw e) t := by
  have henter : enter s = .ok () { s with scopes := s.scopes.enter f } := by
    simp only [enter, function?_of_currentFunction hf, Scopes.push]
  unfold inFrame
  rw [bind_run, henter]
  exact finally_run x leave _

theorem inFrame_goes {x : Lower α} {Q : α → Prop} {f : FuncRef} (hf : currentFunction s = .ok f s)
    (hfn : s.fn? = some f.id) (hr : Ready fn true { s with scopes := s.scopes.enter f })
    (hx : Progress fn true x Q) :
    Goes (inFrame x) s fun a t =>
      (t.fn? = s.fn? ∧ t.scopes = s.scopes ∧ t.depth = s.depth) ∧ Q a := by
  have henter : Steps s { s with scopes := s.scopes.enter f } := .single (.enter hfn)
  have hbody := hx _ hr
  unfold Goes at hbody ⊢
  rw [inFrame_run hf]
  cases hr : x { s with scopes := s.scopes.enter f } with
  | ok a t =>
    rw [hr] at hbody
    obtain ⟨hsteps, ha, hq⟩ := hbody
    have hleave := leave_run ha.scopes.inner_ne_nil
    simp only [bind_run, hleave]
    exact ⟨henter.trans (hsteps.trans (.single .leave)), ⟨ha.fn, ha.scopes.leave, ha.depth⟩, hq⟩
  | error e t =>
    rw [hr] at hbody
    have hleave := @steps_leave t
    simp only [bind_run]
    cases hl : leave t <;> rw [hl] at hleave <;> exact henter.trans (hbody.trans hleave)

theorem inFrame_progress {x : Lower α} {Q : α → Prop} (hx : Progress fn true x Q) :
    Progress fn framed (inFrame x) Q := by
  intro s hr
  obtain ⟨f, hf, hid, -⟩ := currentFunction_run hr
  refine (inFrame_goes hf (hid ▸ hr.inside) (hr.enter hid) hx).mono ?_
  rintro a t ⟨⟨hfn, hscopes, hdepth⟩, hq⟩
  exact ⟨⟨hfn, hscopes ▸ .refl _, hdepth⟩, hq⟩

end Lower

end RealScript
