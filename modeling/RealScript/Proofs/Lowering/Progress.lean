import RealScript.Proofs.Lowering.Declarations

/-! # Lowering a tree goes by steps

One lemma for each construct says that it goes by steps if its parts do, and the induction over the
tree puts them together.
-/

namespace RealScript.Lower

variable {params : List String} {cond : Lower Operand} {pos : Position} {name : String}

open Stateful Lowering

variable {α : Type} {s : Lowering} {fn : Nat} {framed : Bool}

theorem functionValue_progress (f : FuncRef) : Progress fn framed (functionValue f) fun _ => True :=
  (build_progress (.allocate _ _)).bind fun slot _ =>
    (build_progress (.store slot _)).bind fun _ _ => build_progress (.load slot)

theorem requireReal_progress (role : Role) (pos : Position) (v : Operand) :
    Progress fn framed (requireReal role pos v) fun _ => True := by
  unfold requireReal
  split
  · exact .pure trivial
  · exact .reject _ _

theorem condition_progress (pos : Position) (v : Operand) :
    Progress fn framed (condition pos v) fun _ => True :=
  (requireReal_progress _ pos v).bind fun v _ => build_progress (.toBool v)

theorem readVariable_progress (pos : Position) (name : String) :
    Progress fn framed (readVariable pos name) fun _ => True := by
  intro s hr
  unfold readVariable
  refine .bind_ok (a := s.scopes.lookup name) rfl ?_
  cases s.scopes.lookup name with
  | some slot => exact build_progress (.load slot) s hr
  | none =>
    refine .bind_ok (a := s.module.find? name) rfl ?_
    cases s.module.find? name with
    | some f => exact functionValue_progress f.ref s hr
    | none => exact .throw _

theorem free_of_hidden (hname : Plain name) (hr : s.Ready fn framed)
    (hfun : s.module.find? name = none)
    (hvisible : (s.scopes.lookup name).filter (fun slot => !(slot.isGlobal && 0 < s.depth)) = none)
    :
    s.scopes.inner = [] → Plain name ∧ s.scopes.globals.lookup name = none ∧
    s.module.find? name = none := by
  intro hinner
  refine ⟨hname, ?_, hfun⟩
  have hdepth := hr.top hinner
  cases hlookup : s.scopes.lookup name with
  | none => exact Scopes.globals_of_lookup hlookup
  | some slot => simp [hlookup, hdepth, Option.filter] at hvisible

theorem assign_progress (hname : Plain name) (pos valuePos targetPos : Position)
    (v : Operand) : Progress fn framed (assign pos valuePos targetPos name v) fun _ => True := by
  intro s hr
  unfold assign
  dsimp only
  split
  · exact .reject_bind
  · refine .bind_get ?_
    split
    · split
      · exact .reject_bind
      · exact (build_progress (.store _ v)).bind (fun _ _ => .pure trivial) s hr
    · refine .bind_ok (a := s.module.find? name) rfl ?_
      cases hfun : s.module.find? name with
      | some f => exact .reject_bind
      | none =>
        refine (newVariable_goes hr (free_of_hidden hname hr hfun ‹_›)).bind fun slot t hs ha => ?_
        exact ((build_progress (.store slot v)).bind (P := fun _ => True)
          (fun _ _ => .pure trivial) t
          (hr.advance hs ha)).mono fun _ u ⟨hu, _⟩ => ⟨ha.trans hu, trivial⟩

theorem binary_progress (pos : Position) (op : String) (l r : Operand) :
    Progress fn framed (binary pos op l r) fun _ => True := by
  unfold binary
  dsimp only
  split
  · exact fun _ _ => .reject_bind
  · split
    · exact build_progress (.arithmetic _ l r)
    · rw [build_bind]
      exact (build_progress (.compare _ l r)).bind fun c _ => build_progress (.toReal c)
    · simp only [build_bind]
      refine (build_progress (.toBool l)).bind fun x _ => ?_
      refine (build_progress (.toBool r)).bind fun y _ => ?_
      exact (build_progress (.logic _ x y)).bind fun z _ => build_progress (.toReal z)
    · exact .reject _ _

theorem checkArguments_run (pos : Position) (callee : String) (want : List Ty)
    (args : List (Position × Operand)) (s : Lowering) :
    checkArguments pos callee want args s = .ok (args.map Prod.snd) s ∨
      ∃ e, checkArguments pos callee want args s = .error e s := by
  unfold checkArguments
  dsimp only
  split
  · exact .inr ⟨_, rfl⟩
  · rw [bind_run]
    have hcheck : ∀ x ∈ (args.zip want).zipIdx 1, (unless x.1.1.2.ty = x.1.2 do
          reject x.1.1.1 (.argumentType callee x.2 x.1.2 x.1.1.2.ty) : Lower Unit) s = .ok () s ∨
        ∃ e, (unless x.1.1.2.ty = x.1.2 do
          reject x.1.1.1 (.argumentType callee x.2 x.1.2 x.1.1.2.ty) : Lower Unit) s =
            .error e s := by
      intro x _
      split
      · exact .inl rfl
      · exact .inr ⟨_, rfl⟩
    rcases forM_run hcheck with h | ⟨e, h⟩
    · rw [h]
      exact .inl rfl
    · rw [h]
      exact .inr ⟨e, rfl⟩

theorem checkArguments_progress (pos : Position) (callee : String) (want : List Ty)
    (args : List (Position × Operand)) :
    Progress fn framed (checkArguments pos callee want args) fun _ => True := by
  intro s hr
  unfold Goes
  rcases checkArguments_run pos callee want args s with h | ⟨e, h⟩
  · rw [h]
    exact ⟨.refl, .refl s, trivial⟩
  · rw [h]
    exact .refl

theorem callee_progress (pos : Position) (builtin : Bool) (name : String) :
    Progress fn framed (callee pos builtin name) fun _ => True := by
  intro s hr
  unfold callee
  split
  · refine .bind_ok (a := s.module.find? name) rfl ?_
    split
    · exact .pure ⟨.refl s, trivial⟩
    · exact .throw _
  · refine .bind_ok (a := s.scopes.lookup name) rfl ?_
    split
    · split
      · exact .pure ⟨.refl s, trivial⟩
      · exact .throw _
    · refine .bind_ok (a := s.module.find? name) rfl ?_
      split
      · exact .pure ⟨.refl s, trivial⟩
      · exact .throw _

theorem call_progress (c : Callee) (args : List Operand) :
    Progress fn framed (call c args) fun _ => True := by
  cases c with
  | function f => exact build_progress (.call f args)
  | slot slot arity =>
    dsimp only [call]
    rw [build_bind]
    exact (build_progress (.load slot)).bind fun v _ => build_progress (.callIndirect v args)

theorem collection_progress (elements : List Operand) :
    Progress fn framed (collection elements) fun _ => True := by
  unfold collection
  split
  · exact build_progress (.constCollection _)
  · exact build_progress (.makeCollection elements)

theorem inBlock_progress {block join : BlockRef} {body : Lower α} (hb : block.fn = fn)
    (h : Progress fn true body fun _ => True) :
    Progress fn framed (inBlock block join body) fun _ => True :=
  (moveTo_progress hb).bind fun _ _ => (inFrame_progress h).bind fun _ _ => closeBlock_progress join

theorem ifThen_progress {body : Lower α}
    (hc : Progress fn framed cond fun _ => True) (hb : Progress fn true body fun _ => True) :
    Progress fn framed (ifThen cond body) fun _ => True := by
  refine hc.bind fun c _ => ?_
  refine (createBlock_progress "then").bind fun yes hyes => ?_
  refine (createBlock_progress "ifcont").bind fun join hjoin => ?_
  refine (build_progress (.condBr c _ _)).bind fun _ _ => ?_
  refine (inBlock_progress hyes hb).bind fun _ _ => ?_
  exact (moveTo_progress hjoin).bind fun _ _ => .pure trivial

theorem ifElse_progress {body otherwise : Lower α}
    (hc : Progress fn framed cond fun _ => True) (hb : Progress fn true body fun _ => True)
    (ho : Progress fn true otherwise fun _ => True) :
    Progress fn framed (ifElse cond body otherwise) fun _ => True := by
  refine hc.bind fun c _ => ?_
  refine (createBlock_progress "then").bind fun yes hyes => ?_
  refine (createBlock_progress "else").bind fun no hno => ?_
  refine (createBlock_progress "ifcont").bind fun join hjoin => ?_
  refine (build_progress (.condBr c _ _)).bind fun _ _ => ?_
  refine (inBlock_progress hyes hb).bind fun _ _ => ?_
  refine (inBlock_progress hno ho).bind fun _ _ => ?_
  exact (moveTo_progress hjoin).bind fun _ _ => .pure trivial

theorem whileLoop_progress {body : Lower α}
    (hc : Progress fn true cond fun _ => True) (hb : Progress fn true body fun _ => True) :
    Progress fn framed (whileLoop cond body) fun _ => True := by
  refine (createBlock_progress "loopstart").bind fun head hhead => ?_
  refine (createBlock_progress "loop").bind fun loop hloop => ?_
  refine (createBlock_progress "afterloop").bind fun after hafter => ?_
  refine (build_progress (.br _)).bind fun _ _ => ?_
  refine (moveTo_progress hhead).bind fun _ _ => ?_
  refine (inFrame_progress (Q := fun _ => True) ?_).bind fun _ _ => .pure trivial
  refine hc.bind fun c _ => ?_
  refine (build_progress (.condBr c _ _)).bind fun _ _ => ?_
  refine (moveTo_progress hloop).bind fun _ _ => ?_
  refine hb.bind fun _ _ => ?_
  exact (closeBlock_progress head).bind fun _ _ => moveTo_progress hafter

theorem forLoop_progress {var : String} {start step : Lower Operand}
    {body : Lower α} (hs : Progress fn framed start fun _ => True)
    (hb : Progress fn true body fun _ => True) (hp : Progress fn true step fun _ => True)
    (hc : Progress fn true cond fun _ => True) :
    Progress fn framed (forLoop pos var start body step cond) fun _ => True := by
  refine hs.bind fun first _ => ?_
  refine (inFrame_progress (Q := fun _ => True) ?_).bind fun _ _ => .pure trivial
  refine (newVariable_progress pos var .real _).bind fun slot _ => ?_
  refine (build_progress (.store slot first)).bind fun _ _ => ?_
  refine (createBlock_progress "forbody").bind fun loop hloop => ?_
  refine (createBlock_progress "forafter").bind fun after hafter => ?_
  refine (build_progress (.br _)).bind fun _ _ => ?_
  refine (moveTo_progress hloop).bind fun _ _ => ?_
  refine hb.bind fun _ _ => ?_
  refine hp.bind fun increment _ => ?_
  refine hc.bind fun c _ => ?_
  refine (build_progress (.load slot)).bind fun current _ => ?_
  refine (build_progress (.arithmetic .add current increment)).bind fun next _ => ?_
  refine (build_progress (.store slot next)).bind fun _ _ => ?_
  refine (build_progress (.condBr c _ _)).bind fun _ _ => ?_
  exact moveTo_progress hafter

theorem ret_progress {value : Lower Operand} (hv : Progress fn framed value fun _ => True) :
    Progress fn framed (ret pos value) fun _ => True := by
  refine currentFunction_progress.bind fun f _ => ?_
  refine hv.bind fun v _ => ?_
  dsimp only
  split
  · exact fun _ _ => .reject_bind
  · refine (build_progress (.ret _)).bind fun _ _ => ?_
    refine (createBlock_progress "afterret").bind fun after hafter => ?_
    exact (moveTo_progress hafter).bind fun _ _ => .pure trivial

theorem ready_opened (hs : s.Orderly)
    (hstep : Step s (s.push (.opened s.module.store.size name params)
      (some ⟨s.module.store.size, 0, "entry"⟩))) :
    let f := (Function.opened s.module.store.size name params).ref
    let t : Lowering := { s.push (.opened s.module.store.size name params)
      (some ⟨s.module.store.size, 0, "entry"⟩) with depth := s.depth + 1 }
    Ready f.id true { t with scopes := t.scopes.enter f } ∧ currentFunction t = .ok f t := by
  have horderly := (hs.step hstep).step (.deepen (s.depth + 1))
  have henter := horderly.step
    (@Step.enter _ (Function.opened s.module.store.size name params).ref rfl)
  refine ⟨⟨henter, rfl, ?_, (nomatch ·), fun _ => (nomatch ·)⟩, ?_⟩
  · intro f hf
    cases hf
    rfl
  · simp only [currentFunction, bind_run, get_run, Builder.function?, push, Option.bind_eq_bind,
      Option.bind_some, Module.function?_push, if_true, pure_run]

theorem inFunction_goes {body : Lower α}
    (hr : s.Ready fn framed) (hname : Plain name → s.scopes.globals.lookup name = none)
    (hbody : ∀ fn, Progress fn true body fun _ => True) :
    Goes (inFunction pos name params body) s fun _ t => s.Advances t := by
  unfold inFunction
  refine .bind_get ?_
  refine .bind (Q := fun f t => s.module.find? name = none ∧
    f = (Function.opened s.module.store.size name params).ref ∧
    t = s.push (.opened s.module.store.size name params)
      (some ⟨s.module.store.size, 0, "entry"⟩)) ?_ ?_
  · refine .of_run (fun f t h => ?_) fun e t h => ?_
    · obtain ⟨hfree, rfl, rfl⟩ := define_eq_ok hr.orderly h
      exact ⟨.single (.define hfree hname), hfree, rfl, rfl⟩
    · rw [define_eq_error hr.orderly h]
      exact .refl
  · rintro f t hs ⟨hfree, rfl, rfl⟩
    have hdeepen := Relation.ReflTransGen.single (Step.deepen (s := s.push
      (.opened s.module.store.size name params) (some ⟨s.module.store.size, 0, "entry"⟩))
      (s.depth + 1))
    refine .modify_bind hdeepen ?_
    obtain ⟨hready, hcur⟩ := ready_opened hr.orderly (@Step.define _ _ params hfree hname)
    refine (inFrame_goes (Q := fun _ => True) hcur rfl hready ?_).bind ?_
    · refine (bindParams_progress pos _ 0 params).bind fun _ _ => ?_
      refine (hbody _).bind fun _ _ => ?_
      exact closeFunction_progress.bind fun _ _ => verify_progress pos _
    · rintro - u hu ⟨⟨-, hscopes, hdepth⟩, -⟩
      -- The insertion point from before is in a function of the unit.
      have hcreated : s.created <+: u.created := Steps.created ((hs.trans hdeepen).trans hu)
      refine .bind (Q := fun _ v => s.Advances v) (.of_modify ?_ ⟨rfl, ?_, ?_⟩)
        fun _ v _ hv => .pure hv
      · refine (Relation.ReflTransGen.single (.deepen (u.depth - 1))).tail (.moveTo fun r hp => ?_)
        obtain ⟨f, hf, hid⟩ := hr.orderly.point r hp
        exact ⟨f, hcreated.subset hf, hid⟩
      · rw [hscopes]
        exact .refl _
      · rw [hdepth]
        rfl

theorem funcLit_progress {body : Lower α} (hbody : ∀ fn, Progress fn true body fun _ => True) :
    Progress fn framed (funcLit pos params body) fun _ => True := by
  intro s hr
  unfold funcLit
  refine .bind_get ?_
  refine .bind (Q := fun _ t => t = { s with nextFunc := s.nextFunc + 1 }) ⟨.single .count, rfl⟩ ?_
  rintro - t hs rfl
  have ha : s.Advances { s with nextFunc := s.nextFunc + 1 } := ⟨rfl, .refl _, rfl⟩
  have hr' := hr.advance hs ha
  refine (inFunction_goes hr' (fun h => absurd h (not_plain_funcName _)) hbody).bind ?_
  intro f u hs' hu
  exact (functionValue_progress f u (hr'.advance hs' hu)).mono fun _ v ⟨hv, _⟩ =>
    ⟨(ha.trans hu).trans hv, trivial⟩

theorem funcDef_progress {body : Lower α} (hbody : ∀ fn, Progress fn true body fun _ => True) :
    Progress fn framed (funcDef pos name params body) fun _ => True := by
  intro s hr
  unfold funcDef
  refine .bind_ok (a := s.scopes.lookup name) rfl ?_
  cases hvar : s.scopes.lookup name with
  | some slot => exact .reject_bind
  | none =>
    refine .bind_ok (a := s.module.find? name) rfl ?_
    cases hfun : s.module.find? name with
    | some f => exact .reject_bind
    | none =>
      refine (inFunction_goes hr (fun _ => Scopes.globals_of_lookup hvar) hbody).bind ?_
      exact fun _ t _ ht => .pure ⟨ht, trivial⟩

mutual

theorem lower_progress (n : Node) (hn : n.Named Plain) (fn : Nat) (framed : Bool) :
    Progress fn framed (lower n) fun _ => True := by
  match n with
  | .number _ x => exact .pure trivial
  | .ident pos name => exact readVariable_progress pos name
  | .unary _ op x =>
    simp only [lower, build_bind]
    refine (lower_progress x hn fn framed).bind fun v _ => ?_
    refine (requireReal_progress _ x.pos v).bind fun v _ => ?_
    refine (build_progress (.toBool v)).bind fun b _ => ?_
    exact (build_progress (.not b)).bind fun c _ => build_progress (.toReal c)
  | .binary pos op l r =>
    unfold lower
    split
    · split
      · exact (lower_progress r hn.2 fn framed).bind fun v _ => assign_progress hn.1 _ _ _ v
      · exact .reject _ _
    · refine (lower_progress l hn.1 fn framed).bind fun x _ => ?_
      exact (lower_progress r hn.2 fn framed).bind fun y _ => binary_progress pos op x y
  | .call pos builtin name args =>
    refine (callee_progress pos builtin name).bind fun c _ => ?_
    refine (lowerAll_progress args hn.2 fn framed).bind fun vs _ => ?_
    exact (checkArguments_progress pos name _ _).bind fun vs _ => call_progress c vs
  | .collection _ _ elements =>
    exact (lowerElements_progress elements hn fn framed).bind fun vs _ => collection_progress vs
  | .conditional _ c body none =>
    exact ifThen_progress ((lower_progress c hn.1 fn framed).bind fun v _ => condition_progress _ v)
      (lowerAll_progress body hn.2 fn true)
  | .conditional _ c body (some otherwise) =>
    exact ifElse_progress ((lower_progress c hn.1 fn framed).bind fun v _ => condition_progress _ v)
      (lowerAll_progress body hn.2.1 fn true) (lowerAll_progress otherwise hn.2.2 fn true)
  | .whileLoop _ c body =>
    exact whileLoop_progress
      ((lower_progress c hn.1 fn true).bind fun v _ => condition_progress _ v)
      (lowerAll_progress body hn.2 fn true)
  | .forLoop pos var start stop none body =>
    exact forLoop_progress
      ((lower_progress start hn.2.1 fn framed).bind fun v _ => requireReal_progress _ _ v)
      (lowerAll_progress body hn.2.2.2 fn true) (.pure trivial)
      ((lower_progress stop hn.2.2.1 fn true).bind fun v _ => condition_progress _ v)
  | .forLoop pos var start stop (some step) body =>
    exact forLoop_progress
      ((lower_progress start hn.2.1 fn framed).bind fun v _ => requireReal_progress _ _ v)
      (lowerAll_progress body hn.2.2.2.2 fn true)
      ((lower_progress step hn.2.2.2.1 fn true).bind fun v _ => requireReal_progress _ _ v)
      ((lower_progress stop hn.2.2.1 fn true).bind fun v _ => condition_progress _ v)
  | .funcLit pos params body => exact funcLit_progress fun fn => lowerAll_progress body hn.2 fn true
  | .funcDef pos name params body =>
    exact funcDef_progress fun fn => lowerAll_progress body hn.2.2 fn true
  | .hostDecl pos name params => exact hostDecl_progress pos name params
  | .ret _ x => exact ret_progress (lower_progress x hn fn framed)

theorem lowerAll_progress (ns : List Node) (hn : Node.NamedAll Plain ns) (fn : Nat)
    (framed : Bool) :
    Progress fn framed (lowerAll ns) fun _ => True := by
  match ns with
  | [] => exact .pure trivial
  | n :: ns =>
    refine (lower_progress n hn.1 fn framed).bind fun v _ => ?_
    exact (lowerAll_progress ns hn.2 fn framed).bind fun vs _ => .pure trivial

theorem lowerElements_progress (ns : List Node) (hn : Node.NamedAll Plain ns) (fn : Nat)
    (framed : Bool) : Progress fn framed (lowerElements ns) fun _ => True := by
  match ns with
  | [] => exact .pure trivial
  | n :: ns =>
    unfold lowerElements
    dsimp only
    split
    · exact fun _ _ => .reject_bind
    · refine (lower_progress n hn.1 fn framed).bind fun v _ => ?_
      refine (requireReal_progress _ n.pos v).bind fun v _ => ?_
      exact (lowerElements_progress ns hn.2 fn framed).bind fun vs _ => .pure trivial

end

end RealScript.Lower
