import RealScript.Proofs.Lowering.Advance

/-! # Lowering declarations

What the declaration of a variable or a function does to the state, and that it is a step.
-/

namespace RealScript

variable {duplicate : Cause} {params : List String} {pos : Position} {name : String} {ty : Ty}

theorem Module.modify_push (m : Module) (f : Function) (g : Function → Function) :
    Module.modify { m with store := m.store.push f } m.store.size g =
      { m with store := m.store.push (g f) } := by
  simp only [modify, Module.mk.injEq, true_and, and_true]
  refine Array.ext_getElem? fun k => ?_
  rw [Array.getElem?_modify, Array.getElem?_push, Array.getElem?_push]
  by_cases hk : k = m.store.size
  · simp [hk]
  · simp [hk, Ne.symm hk]

theorem Module.declareNative_of_find? {m : Module} (h : m.find? name = none)
    (params : List Ty) (ret : Ty) :
    ∃ names, m.declareNative name params ret =
      let f : Function :=
        { ref := ⟨m.store.size, name, params, ret⟩, paramNames := names, native := true }
      .ok (f, { m with store := m.store.push f }) := by
  refine ⟨(List.range params.length).map fun i => "a" ++ toString i, ?_⟩
  simp only [declareNative, declare, h, Function.id, bind, Except.bind, modify_push]
  rfl

theorem Scopes.globals_of_lookup {sc : Scopes} (h : sc.lookup name = none) :
    sc.globals.lookup name = none := by
  unfold lookup at h
  split at h
  · exact h
  · exact (Option.or_eq_none_iff.mp h).2

namespace Lower

open Stateful Lowering

variable {s t : Lowering} {fn : Nat} {framed : Bool}

theorem newVariable_run_inner {frame : ScopeFrame} {outer : List ScopeFrame} {f : Function}
    (hinner : s.scopes.inner = frame :: outer) (hf : s.builder.function? = some f) :
    newVariable pos name ty duplicate s =
      let bound := s.setModule (s.module.modify f.id fun _ => (f.addSlot name ty).2)
      if (frame.vars.lookup name).isSome then .error (.diagnostic ⟨pos, duplicate⟩) bound
      else .ok (f.addSlot name ty).1 { bound with
        scopes := { s.scopes with inner :=
          { frame with vars := frame.vars ++ [(name, (f.addSlot name ty).1)] } :: outer } } := by
  have halloc : Build.allocate name ty s.builder = .ok (f.addSlot name ty).1
      { s.builder with module := s.module.modify f.id fun _ => (f.addSlot name ty).2 } := by
    simp only [Build.allocate, bind_run, get_run, hf, set_run, pure_run]
    rfl
  have hslot : newSlot name ty s = .ok (f.addSlot name ty).1
      (s.setModule (s.module.modify f.id fun _ => (f.addSlot name ty).2)) := by
    have htop : s.scopes.atGlobal = false := by simp [Scopes.atGlobal, hinner]
    simp only [newSlot, bind_run, get_run, htop, Bool.false_eq_true, if_false, build_run halloc]
    rfl
  simp only [newVariable, bind_run, hslot, Lower.bind, get_run, Lowering.setModule,
    Scopes.declare?, hinner]
  cases frame.vars.lookup name with
  | some slot => rfl
  | none => rfl

theorem newVariable_run_top
    (hinner : s.scopes.inner = []) (hname : s.scopes.globals.lookup name = none) :
    newVariable pos name ty duplicate s =
      .ok (s.module.newGlobal name ty).1 { s.setModule (s.module.newGlobal name ty).2 with
        scopes := { s.scopes with
          globals := s.scopes.globals ++ [(name, (s.module.newGlobal name ty).1)] } } := by
  have htop : s.scopes.atGlobal = true := by simp [Scopes.atGlobal, hinner]
  simp only [newVariable, newSlot, Lower.bind, bind_run, get_run, htop, if_true, set_run, pure_run,
    Scopes.declare?, Lowering.setModule, hinner, hname, Option.isSome_none, Bool.false_eq_true,
    if_false]

theorem newVariable_goes (hr : s.Ready fn framed) (htop : s.scopes.inner = [] → Plain name ∧
      s.scopes.globals.lookup name = none ∧ s.module.find? name = none) :
    Goes (newVariable pos name ty duplicate) s fun _ t => s.Advances t := by
  unfold Goes
  cases hinner : s.scopes.inner with
  | nil =>
    obtain ⟨hplain, hglobal, hfun⟩ := htop hinner
    rw [newVariable_run_top hinner hglobal]
    refine ⟨.single (.bindGlobal hinner hplain hglobal hfun), rfl, ?_, rfl⟩
    simp only [Scopes.Extends, hinner]
    exact ⟨trivial, List.prefix_append _ _⟩
  | cons frame outer =>
    obtain ⟨f, hf, hfn, hid⟩ := hr.function
    have howner : frame.owner.id = fn := hr.owner frame (by rw [hinner]; rfl)
    rw [newVariable_run_inner hinner hf]
    cases hname : frame.vars.lookup name with
    | some slot =>
      have halloc : Build.allocate name ty s.builder = .ok (f.addSlot name ty).1
          { s.builder with module := s.module.modify f.id fun _ => (f.addSlot name ty).2 } := by
        simp only [Build.allocate, bind_run, get_run, hf, set_run, pure_run]
        rfl
      exact .single (.build (.allocate name ty) halloc)
    | none =>
      refine ⟨.single (.bindLocal hinner (hr.inside.trans (by rw [howner])) (howner ▸ hfn) hname),
        rfl, ?_, rfl⟩
      simp only [Scopes.Extends, hinner]
      exact ⟨trivial, _, rfl⟩

theorem declare_run_code (hname : s.module.find? name = none) : declare pos name params false s =
      .ok ⟨s.module.store.size, name, params.map fun _ => .real, .real⟩
        (s.push { ref := ⟨s.module.store.size, name, params.map fun _ => .real, .real⟩
                  paramNames := params } s.builder.point) := by
  simp only [declare, bind_run, get_run, Bool.false_eq_true, if_false, Module.declare, hname,
    Function.id, Module.modify_push, set_run, pure_run]
  rfl

theorem define_run (hname : s.module.find? name = none) :
    define pos name params s = .ok (Function.opened s.module.store.size name params).ref
      (s.push (.opened s.module.store.size name params)
        (some ⟨s.module.store.size, 0, "entry"⟩)) := by
  simp only [define, bind_run, declare_run_code hname, openEntry, get_run]
  simp only [push, Lowering.module, Module.function?_push, if_true, Module.modify_push, set_run,
    pure_run]
  rfl

theorem declare_run_native (hname : s.module.find? name = none) : declare pos name params true s =
      .ok ⟨s.module.store.size, name, params.map fun _ => .real, .real⟩
        (s.push (.host s.module.store.size name params) s.builder.point) := by
  obtain ⟨names, hd⟩ := Module.declareNative_of_find? hname (params.map fun _ => Ty.real) .real
  simp only [declare, bind_run, get_run, if_true, hd, Function.id, Module.modify_push, set_run,
    pure_run]
  rfl

theorem declare_run_taken (hs : s.Orderly) {g : Function}
    (hg : s.module.find? name = some g) (pos : Position) (params : List String) (native : Bool) :
    ∃ e, declare pos name params native s = .error e s := by
  have hd : ∃ e, s.module.declare name (params.map fun _ => Ty.real) .real = .error e := by
    simp only [Module.declare, hg]
    split
    · exact ⟨_, rfl⟩
    · have hbody := hs.complete g (List.mem_of_find?_eq_some hg)
      have : (g.hasBody || g.native) = true := by rcases hbody with h | h <;> simp [h]
      rw [if_pos this]
      exact ⟨_, rfl⟩
  obtain ⟨e, he⟩ := hd
  have hn : s.module.declareNative name (params.map fun _ => Ty.real) .real = .error e := by
    simp only [Module.declareNative, he]
    rfl
  refine ⟨.diagnostic ⟨pos, .backend e⟩, ?_⟩
  cases native <;>
    simp only [declare, bind_run, get_run, Bool.false_eq_true, if_false, if_true, he, hn] <;> rfl

theorem define_eq_ok (hs : s.Orderly) {f : FuncRef} (h : define pos name params s = .ok f t) :
    s.module.find? name = none ∧ f = (Function.opened s.module.store.size name params).ref ∧
      t = s.push (.opened s.module.store.size name params)
        (some ⟨s.module.store.size, 0, "entry"⟩) := by
  cases hname : s.module.find? name with
  | none =>
    rw [define_run hname] at h
    cases h
    exact ⟨rfl, rfl, rfl⟩
  | some g =>
    obtain ⟨e, he⟩ := declare_run_taken hs hname pos params false
    simp only [define, bind_run, he] at h
    cases h

theorem define_eq_error (hs : s.Orderly)
    {e : LowerFailure} (h : define pos name params s = .error e t) : t = s := by
  cases hname : s.module.find? name with
  | none =>
    rw [define_run hname] at h
    cases h
  | some g =>
    obtain ⟨e', he⟩ := declare_run_taken hs hname pos params false
    simp only [define, bind_run, he] at h
    cases h
    rfl

theorem hostDecl_progress (pos : Position) (name : String) (params : List String) :
    Progress fn framed (hostDecl pos name params) fun _ => True := by
  intro s hr
  have hdone : Goes (pure (.real 0) : Lower Operand) s fun _ t => s.Advances t ∧ True :=
    .pure ⟨.refl s, trivial⟩
  unfold hostDecl
  refine .bind_get ?_
  split
  · have hhost : (name, params.length) ∈ s.hosts := by simpa using ‹s.hosts.contains _ = true›
    refine .bind_ok (a := s.scopes.lookup name) rfl ?_
    cases hvar : s.scopes.lookup name with
    | some slot => exact .reject_bind
    | none =>
      refine .bind_ok (a := s.module.find? name) rfl ?_
      cases hname : s.module.find? name with
      | some f =>
        dsimp only
        split
        · exact hdone
        · exact .throw _
      | none =>
        refine .bind (Q := fun _ t => t = s.push (.host s.module.store.size name params)
          s.builder.point) ?_ fun _ t _ ht => ?_
        · unfold Goes
          rw [declare_run_native hname]
          exact ⟨.single (.host hname (Scopes.globals_of_lookup hvar) hhost), rfl⟩
        · subst ht
          exact .pure ⟨⟨rfl, .refl _, rfl⟩, trivial⟩
  · exact .reject_bind

theorem closeFunction_progress : Progress fn framed closeFunction fun _ => True := by
  intro s hr
  unfold closeFunction
  refine .bind_get ?_
  split
  · exact .pure ⟨.refl s, trivial⟩
  · exact (build_progress (.ret _)).bind (fun _ _ => .pure trivial) s hr

theorem closeBlock_progress (target : BlockRef) :
    Progress fn framed (closeBlock target) fun _ => True := by
  intro s hr
  unfold closeBlock
  refine .bind_get ?_
  split
  · exact .pure ⟨.refl s, trivial⟩
  · exact (build_progress (.br _)).bind (fun _ _ => .pure trivial) s hr

theorem verify_progress (pos : Position) (f : FuncRef) :
    Progress fn framed (verify pos f) fun _ => True := by
  intro s hr
  unfold verify
  refine .bind_get ?_
  split
  · exact .throw _
  · exact .pure ⟨.refl s, trivial⟩

theorem newVariable_progress (pos : Position) (name : String) (ty : Ty) (duplicate : Cause) :
    Progress fn true (newVariable pos name ty duplicate) fun _ => True :=
  fun _ hr => (newVariable_goes hr fun h => absurd h (hr.frame rfl)).mono fun _ _ h => ⟨h, trivial⟩

theorem bindParams_progress (pos : Position) (f : FuncRef) (index : Nat) (names : List String) :
    Progress fn true (bindParams pos f index names) fun _ => True := by
  induction names generalizing index with
  | nil => exact .pure trivial
  | cons name names ih =>
    refine (newVariable_progress pos name .real _).bind fun slot _ => ?_
    exact (build_progress (.store slot _)).bind fun _ _ => ih (index + 1)

end Lower

end RealScript
