import RealScript.Proofs.Lowering.Numbers
import RealScript.Proofs.Lowering.Progress

/-! # Lowering in other numbers

Lowering gives the same result up to the numbers of units and literals from states that are the same
up to these numbers.
-/

namespace RealScript

variable {pos : Position} {name : String}

open Lowering

namespace Lower

open Stateful

variable {α β : Type} {ρ : Counted}

/-- Two computations do the same from a state and from the renumbered state, as long as the
renumbering covers the literals that they number. Their values are related by `v`. -/
def RenamesAt (ρ : Counted) (v : α → α) (x x' : Lower α) (s : Lowering) : Prop := match x s with
  | .ok a t => s.nextFunc ≤ t.nextFunc ∧
      (ρ.Covers t.nextFunc → x' (s.along ρ) = .ok (v a) (t.along ρ))
  | .error e t => s.nextFunc ≤ t.nextFunc ∧
      (ρ.Covers t.nextFunc → x' (s.along ρ) = .error (e.rename ρ.name) (t.along ρ))

def Renames (ρ : Counted) (v : α → α) (x x' : Lower α) : Prop :=
  ∀ s, ρ.here ≤ s.nextFunc → RenamesAt ρ v x x' s

theorem RenamesAt.of_eq {v : α → α} {x x' : Lower α} {s : Lowering} (h : match x s with
      | .ok a t => t.nextFunc = s.nextFunc ∧ x' (s.along ρ) = .ok (v a) (t.along ρ)
      | .error e t => t.nextFunc = s.nextFunc ∧
          x' (s.along ρ) = .error (e.rename ρ.name) (t.along ρ)) :
    RenamesAt ρ v x x' s := by
  unfold RenamesAt
  cases hx : x s with
  | ok a t =>
    rw [hx] at h
    exact ⟨Nat.le_of_eq h.1.symm, fun _ => h.2⟩
  | error e t =>
    rw [hx] at h
    exact ⟨Nat.le_of_eq h.1.symm, fun _ => h.2⟩

theorem RenamesAt.congr {v : α → α} {x x' y : Lower α} {s : Lowering} (h : RenamesAt ρ v x y s)
    (he : ρ.Covers s.nextFunc → x' = y) : RenamesAt ρ v x x' s := by
  unfold RenamesAt at h ⊢
  cases hx : x s with
  | ok a t =>
    rw [hx] at h
    exact ⟨h.1, fun hc => he (hc.mono h.1) ▸ h.2 hc⟩
  | error e t =>
    rw [hx] at h
    exact ⟨h.1, fun hc => he (hc.mono h.1) ▸ h.2 hc⟩

namespace Renames

variable {v : α → α} {w : β → β} {x x' : Lower α} {f f' : α → Lower β} {s : Lowering}

theorem bind_at (hs : ρ.here ≤ s.nextFunc) (hx : RenamesAt ρ v x x' s)
    (hf : ∀ a t, x s = .ok a t → ρ.here ≤ t.nextFunc → RenamesAt ρ w (f a) (f' (v a)) t) :
    RenamesAt ρ w (x >>= f) (x' >>= f') s := by
  unfold RenamesAt at hx ⊢
  rw [bind_run, bind_run]
  cases h : x s with
  | error e t =>
    rw [h] at hx
    exact ⟨hx.1, fun hc => by simp only [hx.2 hc]⟩
  | ok a t =>
    rw [h] at hx
    have hf := hf a t h (Nat.le_trans hs hx.1)
    unfold RenamesAt at hf
    simp only
    -- What the whole computation covers, its first part covers.
    cases hb : f a t with
    | ok b u =>
      rw [hb] at hf
      exact ⟨Nat.le_trans hx.1 hf.1, fun hc => by simp only [hx.2 (hc.mono hf.1), hf.2 hc]⟩
    | error e u =>
      rw [hb] at hf
      exact ⟨Nat.le_trans hx.1 hf.1, fun hc => by simp only [hx.2 (hc.mono hf.1), hf.2 hc]⟩

theorem bind (hx : Renames ρ v x x') (hf : ∀ a, Renames ρ w (f a) (f' (v a))) :
    Renames ρ w (x >>= f) (x' >>= f') := fun s hs =>
  bind_at hs (hx s hs) fun a t _ ht => hf a t ht

theorem bind_get {f f' : Lowering → Lower β} (hs : ρ.here ≤ s.nextFunc)
    (hf : RenamesAt ρ w (f s) (f' (s.along ρ)) s) :
    RenamesAt ρ w (get >>= f) (get >>= f') s := by
  refine bind_at (v := (·.along ρ)) hs (.of_eq ⟨rfl, rfl⟩) fun a t h _ => ?_
  cases h
  exact hf

theorem pure {a a' : α} (h : v a = a') : Renames ρ v (pure a) (pure a') :=
  fun _ _ => .of_eq ⟨rfl, h ▸ rfl⟩

theorem reject {cause : Cause} (h : cause.rename ρ.name = cause) :
    Renames ρ v (reject pos cause) (reject pos cause) := by
  refine fun s _ => .of_eq ⟨rfl, ?_⟩
  simp only [LowerFailure.rename, h]
  rfl

theorem modify {g g' : Lowering → Lowering} (hg : ∀ s, g' (s.along ρ) = (g s).along ρ)
    (hn : ∀ s, (g s).nextFunc = s.nextFunc) :
    Renames ρ id (modify g : Lower PUnit) (modify g') := fun s _ =>
  .of_eq ⟨hn s, congrArg (EStateM.Result.ok PUnit.unit) (hg s)⟩

end Renames

/-! ## The parts of lowering -/

theorem renames_build {v : α → α} {op op' : Build α} (h : Build.Renames ρ.name v op op') :
    Renames ρ v (build op) (build op') := by
  intro s _
  have h : op' (s.along ρ).builder = _ := h s.builder
  refine .of_eq ?_
  unfold build
  rw [h]
  cases op s.builder with
  | ok x b => exact ⟨rfl, rfl⟩
  | error e b => exact ⟨rfl, rfl⟩

theorem renames_emit (d : Draft) :
    Renames ρ (·.rename ρ.name) (build (.emit d)) (build (.emit (d.rename ρ.name))) :=
  renames_build (Build.renames_emit d)

theorem lookup_along (s : Lowering) (name : String) :
    (s.along ρ).scopes.lookup name = s.scopes.lookup name := by
  change (s.scopes.rename ρ.name).lookup name = s.scopes.lookup name
  have hframes : ∀ (k : Nat) (fs : List ScopeFrame),
      ((fs.map fun f => { f with owner := f.owner.rename ρ.name }).filter
        (·.owner.id = k)).findSome? (·.vars.lookup name) =
      (fs.filter (·.owner.id = k)).findSome? (·.vars.lookup name) := by
    intro k fs
    rw [List.filter_map, List.findSome?_map]
    rfl
  unfold Scopes.lookup
  cases h : s.scopes.inner with
  | nil => simp [Scopes.rename, h]
  | cons f outer =>
    simp only [Scopes.rename, h]
    exact congrArg (Option.or · _) (hframes f.owner.id (f :: outer))

theorem renames_lookup (name : String) : Renames ρ id (lookup name) (lookup name) :=
  fun s _ => .of_eq ⟨rfl, congrArg (EStateM.Result.ok · _) (lookup_along s name)⟩

theorem find?_along (h : Plain name) (s : Lowering) :
    (s.along ρ).module.find? name = (s.module.find? name).map (·.rename ρ.name) := by
  have := s.module.find?_rename ρ.name_injective name
  rwa [ρ.name_of_plain h] at this

theorem renames_function? (h : Plain name) :
    Renames ρ (Option.map (·.rename ρ.name)) (function? name) (function? name) :=
  fun s _ => .of_eq ⟨rfl, congrArg (EStateM.Result.ok · _) (find?_along h s)⟩

theorem renames_currentFunction : Renames ρ (·.rename ρ.name) currentFunction currentFunction := by
  intro s _
  have h : (s.along ρ).builder.function? = s.builder.function?.map (·.rename ρ.name) :=
    Builder.function?_rename ρ.name s.builder
  refine .of_eq ?_
  unfold currentFunction
  simp only [bind_run, get_run, h]
  cases s.builder.function? with
  | none => exact ⟨rfl, rfl⟩
  | some f => exact ⟨rfl, rfl⟩

theorem renames_functionValue (f : FuncRef) :
    Renames ρ (·.rename ρ.name) (functionValue f) (functionValue (f.rename ρ.name)) := by
  refine (renames_build (Build.renames_allocate "functmp" f.ty)).bind fun slot => ?_
  exact (renames_emit (.store slot (.func f))).bind fun _ => renames_emit (.load slot)

theorem renames_requireReal (role : Role) (pos : Position) (x : Operand) :
    Renames ρ (·.rename ρ.name) (requireReal role pos x)
    (requireReal role pos (x.rename ρ.name)) := by
  unfold requireReal
  rw [Operand.ty_rename]
  split
  · exact .pure rfl
  · exact .reject rfl

theorem renames_condition (pos : Position) (x : Operand) :
    Renames ρ (·.rename ρ.name) (condition pos x) (condition pos (x.rename ρ.name)) :=
  (renames_requireReal _ pos x).bind fun x => renames_emit (.toBool x)

theorem renames_readVariable (h : Plain name) (pos : Position) :
    Renames ρ (·.rename ρ.name) (readVariable pos name) (readVariable pos name) := by
  refine (renames_lookup name).bind fun slot? => ?_
  cases slot? with
  | some slot => exact renames_emit (.load slot)
  | none =>
    refine (renames_function? h).bind fun f? => ?_
    cases f? with
    | some f => exact renames_functionValue f.ref
    | none => exact .reject rfl

theorem renames_newSlot (name : String) (ty : Ty) :
    Renames ρ id (newSlot name ty) (newSlot name ty) := by
  intro s hs
  have htop : (s.along ρ).scopes.atGlobal = s.scopes.atGlobal := by
    change (s.scopes.rename ρ.name).atGlobal = _
    simp [Scopes.atGlobal, Scopes.rename]
  refine Renames.bind_get hs ?_
  rw [htop]
  cases s.scopes.atGlobal with
  | true => exact .of_eq ⟨rfl, rfl⟩
  | false => exact renames_build (Build.renames_allocate name ty) s hs

theorem declare?_rename (ρ : String → String) (sc : Scopes) (name : String) (slot : Slot) :
    (sc.rename ρ).declare? name slot = (sc.declare? name slot).map (·.rename ρ) := by
  unfold Scopes.declare?
  cases h : sc.inner with
  | nil =>
    simp only [Scopes.rename, h, List.map_nil]
    split <;> simp
  | cons f outer =>
    simp only [Scopes.rename, h, List.map_cons]
    split <;> simp

theorem renames_bind {slot : Slot} {duplicate : Cause} (h : duplicate.rename ρ.name = duplicate) :
    Renames ρ id (Lower.bind pos name slot duplicate) (Lower.bind pos name slot duplicate) := by
  intro s hs
  have hdeclare : (s.along ρ).scopes.declare? name slot = _ :=
    declare?_rename ρ.name s.scopes name slot
  refine Renames.bind_get hs ?_
  rw [hdeclare]
  cases s.scopes.declare? name slot with
  | some sc => exact .of_eq ⟨rfl, rfl⟩
  | none => exact Renames.reject h s hs

theorem renames_newVariable {ty : Ty} {duplicate : Cause}
    (h : duplicate.rename ρ.name = duplicate) :
    Renames ρ id (newVariable pos name ty duplicate) (newVariable pos name ty duplicate) :=
  (renames_newSlot name ty).bind fun _ => (renames_bind h).bind fun _ => .pure rfl

theorem renames_guard {c : Prop} [Decidable c] {v : α → α} {cause : Cause}
    {f f' : Unit → Lower α} (h : cause.rename ρ.name = cause) (hf : Renames ρ v (f ()) (f' ())) :
    Renames ρ v (if c then reject pos cause >>= f else f ())
      (if c then reject pos cause >>= f' else f' ()) := by
  split
  · exact (Renames.reject (v := id) h).bind fun _ => hf
  · exact hf

theorem renames_assign (hname : Plain name) (pos valuePos targetPos : Position) (x : Operand) :
    Renames ρ (·.rename ρ.name) (assign pos valuePos targetPos name x)
      (assign pos valuePos targetPos name (x.rename ρ.name)) := by
  unfold assign
  simp only [Operand.ty_rename]
  refine renames_guard rfl ?_
  intro s hs
  refine Renames.bind_get hs ?_
  simp only [lookup_along]
  rw [show (s.along ρ).depth = s.depth from rfl]
  cases (s.scopes.lookup name).filter fun slot => !(slot.isGlobal && decide (0 < s.depth)) with
  | some slot =>
    refine renames_guard rfl ?_ s hs
    exact (renames_emit (.store slot x)).bind fun _ => .pure rfl
  | none =>
    refine ((renames_function? hname).bind fun f? => ?_) s hs
    simp only [Option.isSome_map]
    refine renames_guard rfl ?_
    refine (renames_newVariable rfl).bind fun slot => ?_
    exact (renames_emit (.store slot x)).bind fun _ => .pure rfl

theorem renames_binary (pos : Position) (op : String) (l r : Operand) :
    Renames ρ (·.rename ρ.name) (binary pos op l r)
      (binary pos op (l.rename ρ.name) (r.rename ρ.name)) := by
  unfold binary
  simp only [Operand.ty_rename]
  refine renames_guard rfl ?_
  split
  · exact renames_build (Build.renames_arithmetic _ l r)
  · rw [build_bind, build_bind]
    exact (renames_emit (.compare _ l r)).bind fun c => renames_emit (.toReal c)
  · simp only [build_bind]
    refine (renames_emit (.toBool l)).bind fun x => ?_
    refine (renames_emit (.toBool r)).bind fun y => ?_
    exact (renames_build (Build.renames_logic _ x y)).bind fun z => renames_emit (.toReal z)
  · exact .reject rfl

/-! ## Calls -/

def Callee.rename (ρ : String → String) : Callee → Callee
  | .function f => .function (f.rename ρ)
  | c => c

theorem Callee.params_rename (ρ : String → String) (c : Callee) :
    (c.rename ρ).params = c.params := by
  cases c <;> rfl

theorem renames_callee (h : Plain name) (pos : Position) (builtin : Bool) :
    Renames ρ (·.rename ρ.name) (callee pos builtin name) (callee pos builtin name) := by
  unfold callee
  split
  · refine (renames_function? h).bind fun f? => ?_
    have hnative : (f?.map (·.rename ρ.name)).filter (·.native) =
        (f?.filter (·.native)).map (·.rename ρ.name) := by
      rw [Option.filter_map]
      rfl
    rw [hnative]
    cases f?.filter (·.native) with
    | some f => exact .pure rfl
    | none => exact .reject rfl
  · refine (renames_lookup name).bind fun slot? => ?_
    cases slot? with
    | some slot =>
      dsimp only [id]
      split
      · exact .pure rfl
      · exact .reject rfl
    | none =>
      refine (renames_function? h).bind fun f? => ?_
      cases f? with
      | some f => exact .pure rfl
      | none => exact .reject rfl

theorem renames_forM {γ δ : Type} {g : γ → Lower Unit} {g' : δ → Lower Unit} {h : γ → δ}
    (hg : ∀ x, Renames ρ id (g x) (g' (h x))) (xs : List γ) :
    Renames ρ id (xs.forM g) ((xs.map h).forM g') := by
  induction xs with
  | nil => exact .pure rfl
  | cons x xs ih => exact (hg x).bind fun _ => ih

theorem renames_checkArguments (pos : Position) (callee : String) (want : List Ty)
    (args : List (Position × Operand)) :
    Renames ρ (List.map (·.rename ρ.name)) (checkArguments pos callee want args)
      (checkArguments pos callee want (args.map fun a => (a.1, a.2.rename ρ.name))) := by
  unfold checkArguments
  simp only [List.length_map]
  refine renames_guard rfl ?_
  rw [List.zip_map_left, List.zipIdx_map]
  refine (renames_forM ?_ _).bind fun _ => .pure (by simp)
  rintro ⟨⟨arg, ty⟩, index⟩
  simp only [Prod.map, Operand.ty_rename, id]
  split
  · exact .pure rfl
  · exact .reject rfl

theorem renames_call (c : Callee) (args : List Operand) : Renames ρ (·.rename ρ.name) (call c args)
      (call (c.rename ρ.name) (args.map (·.rename ρ.name))) := by
  cases c with
  | function f => exact renames_emit (.call f args)
  | slot slot arity =>
    dsimp only [call, Callee.rename]
    rw [build_bind, build_bind]
    exact (renames_emit (.load slot)).bind fun x => renames_emit (.callIndirect x args)

theorem renames_collection (elements : List Operand) :
    Renames ρ (·.rename ρ.name) (collection elements)
      (collection (elements.map (·.rename ρ.name))) := by
  have hdata : (elements.map (·.rename ρ.name)).mapM Operand.number? =
      elements.mapM Operand.number? := by
    rw [List.mapM_map]
    congr 1
    funext x
    exact Operand.number?_rename ρ.name x
  unfold collection
  rw [hdata]
  cases elements.mapM Operand.number? with
  | some data => exact renames_emit (.constCollection data)
  | none => exact renames_emit (.makeCollection elements)

/-! ## Functions -/

theorem declare_rename (m : Module) (name : String) (params : List Ty) (ret : Ty) :
    (m.rename ρ.name).declare (ρ.name name) params ret =
      ((m.declare name params ret).mapError (·.rename ρ.name)).map fun r =>
        (r.1.rename ρ.name, r.2.rename ρ.name) := by
  unfold Module.declare
  rw [m.find?_rename ρ.name_injective]
  cases m.find? name with
  | some f =>
    simp only [Option.map_some]
    rw [show (f.rename ρ.name).ref.params = f.ref.params from rfl,
      show (f.rename ρ.name).ref.ret = f.ref.ret from rfl,
      show (f.rename ρ.name).native = f.native from rfl,
      show (f.rename ρ.name).hasBody = f.hasBody by simp [Function.hasBody, Function.rename]]
    split
    · rfl
    · split <;> rfl
  | none =>
    simp only [Option.map_none, Except.mapError, Except.map, Except.ok.injEq, Prod.mk.injEq]
    refine ⟨?_, ?_⟩
    · simp [Function.rename, FuncRef.rename, Module.rename]
    · rw [← Module.push_rename]
      simp [Function.rename, FuncRef.rename, Module.rename]

theorem declareNative_rename (m : Module) (name : String) (params : List Ty) (ret : Ty) :
    (m.rename ρ.name).declareNative (ρ.name name) params ret =
      ((m.declareNative name params ret).mapError (·.rename ρ.name)).map fun r =>
        (r.1.rename ρ.name, r.2.rename ρ.name) := by
  unfold Module.declareNative
  rw [declare_rename]
  cases m.declare name params ret with
  | error e => rfl
  | ok r =>
    change Except.ok _ = Except.ok _
    simp only [Except.ok.injEq, Prod.mk.injEq]
    exact ⟨rfl, Module.modify_rename ρ.name r.2 r.1.id { r.1 with native := true }⟩

theorem modify_paramNames (m : Module) (k : Nat) (params : List String) :
    (m.rename ρ.name).modify k (fun f => { f with paramNames := params }) =
      (m.modify k fun f => { f with paramNames := params }).rename ρ.name := by
  simp only [Module.modify, Module.rename, Module.mk.injEq, true_and, and_true]
  refine Array.ext_getElem? fun j => ?_
  simp only [Array.getElem?_modify, Array.getElem?_map]
  split
  · cases m.store[j]? <;> rfl
  · rfl

theorem renames_declare (pos : Position) (name : String) (params : List String) (native : Bool) :
    Renames ρ (·.rename ρ.name) (declare pos name params native)
      (declare pos (ρ.name name) params native) := by
  intro s hs
  have hdeclared : ∀ types : List Ty,
      (if native = true then (s.along ρ).module.declareNative (ρ.name name) types .real
        else (s.along ρ).module.declare (ρ.name name) types .real) =
      ((if native = true then s.module.declareNative name types .real
        else s.module.declare name types .real).mapError (·.rename ρ.name)).map fun r =>
          (r.1.rename ρ.name, r.2.rename ρ.name) := by
    intro types
    cases native
    · exact declare_rename s.module name types .real
    · exact declareNative_rename s.module name types .real
  refine Renames.bind_get hs (.of_eq ?_)
  simp only [hdeclared]
  cases (if native = true then s.module.declareNative name (params.map fun _ => Ty.real) .real
    else s.module.declare name (params.map fun _ => Ty.real) .real) with
  | error e => exact ⟨rfl, rfl⟩
  | ok r =>
    refine ⟨rfl, ?_⟩
    have hm := modify_paramNames (ρ := ρ) r.2 r.1.id params
    have hcreated : (s.created ++ [r.1.ref]).map (·.rename ρ.name) =
        s.created.map (·.rename ρ.name) ++ [r.1.ref.rename ρ.name] := List.map_append
    change EStateM.Result.ok _ _ = EStateM.Result.ok _ _
    rw [EStateM.Result.ok.injEq]
    refine ⟨rfl, ?_⟩
    change Lowering.mk _ _ _ _ _ _ _ = Lowering.mk _ _ _ _ _ _ _
    rw [Lowering.mk.injEq]
    exact ⟨congrArg (Builder.mk · _) hm, rfl, rfl, rfl, rfl, hcreated.symm, rfl⟩

theorem renames_openEntry (f : FuncRef) :
    Renames ρ id (openEntry f) (openEntry (f.rename ρ.name)) := by
  intro s hs
  have hfun : (s.along ρ).module.function? f.id = (s.module.function? f.id).map (·.rename ρ.name) :=
    Module.function?_rename ρ.name s.module f.id
  refine Renames.bind_get hs (.of_eq ?_)
  rw [show (f.rename ρ.name).id = f.id from rfl]
  simp only [hfun]
  cases s.module.function? f.id with
  | none => exact ⟨rfl, rfl⟩
  | some fn =>
    simp only [Option.map_some, Function.addBlock_rename]
    refine ⟨rfl, ?_⟩
    refine congrArg (EStateM.Result.ok _) ?_
    change Lowering.mk _ _ _ _ _ _ _ = Lowering.mk _ _ _ _ _ _ _
    rw [Lowering.mk.injEq]
    exact ⟨congrArg (Builder.mk · _) (Module.modify_rename ρ.name s.module f.id _), rfl,
      rfl, rfl, rfl,
      rfl, rfl⟩

theorem renames_define (pos : Position) (name : String) (params : List String) :
    Renames ρ (·.rename ρ.name) (define pos name params) (define pos (ρ.name name) params) :=
  (renames_declare pos name params false).bind fun f =>
    (renames_openEntry f).bind fun _ => .pure rfl

theorem renames_hostDecl (h : Plain name) (pos : Position) (params : List String) :
    Renames ρ (·.rename ρ.name) (hostDecl pos name params) (hostDecl pos name params) := by
  have hdeclare := renames_declare (ρ := ρ) pos name params true
  rw [ρ.name_of_plain h] at hdeclare
  intro s hs
  unfold hostDecl
  refine Renames.bind_get hs ?_
  rw [show (s.along ρ).hosts = s.hosts from rfl]
  dsimp only
  split
  · refine ((renames_lookup name).bind fun slot? => ?_) s hs
    refine renames_guard rfl ?_
    refine (renames_function? h).bind fun f? => ?_
    cases f? with
    | some f =>
      simp only [Option.map_some]
      rw [show (f.rename ρ.name).native = f.native from rfl,
        show (f.rename ρ.name).ref.params = f.ref.params from rfl]
      split
      · exact .pure rfl
      · exact .reject rfl
    | none => exact hdeclare.bind fun _ => .pure rfl
  · exact Renames.bind_at (v := id) hs (Renames.reject rfl s hs) fun _ _ h => nomatch h

theorem renames_close {d : Draft} (hd : d.rename ρ.name = d) :
    Renames ρ id (do unless (← get).builder.terminated do let _ ← build (.emit d))
      (do unless (← get).builder.terminated do let _ ← build (.emit d)) := by
  intro s hs
  have hterm : (s.along ρ).builder.terminated = s.builder.terminated :=
    Builder.terminated_rename ρ.name s.builder
  refine Renames.bind_get hs ?_
  rw [hterm]
  split
  · exact .of_eq ⟨rfl, rfl⟩
  · refine Renames.bind_at (v := (·.rename ρ.name)) hs ?_ fun _ t _ _ => .of_eq ⟨rfl, rfl⟩
    have := renames_emit (ρ := ρ) d s hs
    rwa [hd] at this

theorem renames_closeFunction : Renames ρ id closeFunction closeFunction :=
  renames_close (d := .ret (some (.real 0))) rfl

theorem renames_closeBlock (target : BlockRef) :
    Renames ρ id (closeBlock target) (closeBlock target) :=
  renames_close (d := .br (some target)) rfl

theorem renames_verify (pos : Position) (f : FuncRef) :
    Renames ρ id (verify pos f) (verify pos (f.rename ρ.name)) := by
  intro s hs
  have hfun : ((s.along ρ).module.function? f.id).map Function.verify =
      ((s.module.function? f.id).map Function.verify).map (·.mapError (·.rename ρ.name)) := by
    rw [show (s.along ρ).module = s.module.rename ρ.name from rfl, Module.function?_rename]
    cases s.module.function? f.id with
    | none => rfl
    | some g => exact congrArg some (Function.verify_rename ρ.name g)
  refine Renames.bind_get hs ?_
  rw [show (f.rename ρ.name).id = f.id from rfl, hfun]
  cases (s.module.function? f.id).map Function.verify with
  | none => exact .of_eq ⟨rfl, rfl⟩
  | some r =>
    cases r with
    | ok => exact .of_eq ⟨rfl, rfl⟩
    | error e => exact .of_eq ⟨rfl, rfl⟩

theorem renames_bindParams (pos : Position) (f : FuncRef) (index : Nat) (names : List String) :
    Renames ρ id (bindParams pos f index names) (bindParams pos (f.rename ρ.name) index names) := by
  induction names generalizing index with
  | nil => exact .pure rfl
  | cons name names ih =>
    refine (renames_newVariable rfl).bind fun slot => ?_
    exact (renames_emit (.store slot (.param f.id index name .real))).bind fun _ => ih (index + 1)

/-! ## Control flow -/

theorem renames_enter : Renames ρ id enter enter := by
  intro s _
  have hf : (s.along ρ).builder.function? = s.builder.function?.map (·.rename ρ.name) :=
    Builder.function?_rename ρ.name s.builder
  refine .of_eq ?_
  unfold enter
  rw [hf]
  cases s.builder.function? <;> exact ⟨rfl, rfl⟩

theorem renames_leave : Renames ρ id leave leave := by
  intro s _
  refine .of_eq ?_
  unfold leave
  obtain ⟨builder, ⟨globals, inner⟩, _⟩ := s
  cases inner <;> exact ⟨rfl, rfl⟩

theorem renames_finally {v : α → α} {x x' : Lower α} {z z' : Lower Unit}
    (hx : Renames ρ v x x') (hz : Renames ρ id z z') :
    Renames ρ v (try x finally z) (try x' finally z') := by
  intro s hs
  have hx := hx s hs
  unfold RenamesAt at hx ⊢
  rw [finally_run, finally_run]
  cases h : x s with
  | ok a t =>
    rw [h] at hx
    have hz := hz t (Nat.le_trans hs hx.1)
    unfold RenamesAt at hz
    simp only [bind_run]
    cases hb : z t <;> rw [hb] at hz <;> refine ⟨Nat.le_trans hx.1 hz.1, fun hc => ?_⟩
    · simp only [hx.2 (hc.mono hz.1), hz.2 hc]
      rfl
    · simp only [hx.2 (hc.mono hz.1), hz.2 hc]
  | error e t =>
    rw [h] at hx
    have hz := hz t (Nat.le_trans hs hx.1)
    unfold RenamesAt at hz
    simp only [bind_run]
    cases hb : z t <;> rw [hb] at hz <;> refine ⟨Nat.le_trans hx.1 hz.1, fun hc => ?_⟩
    · simp only [hx.2 (hc.mono hz.1), hz.2 hc]
      rfl
    · simp only [hx.2 (hc.mono hz.1), hz.2 hc]

theorem renames_inFrame {v : α → α} {x x' : Lower α} (hx : Renames ρ v x x') :
    Renames ρ v (inFrame x) (inFrame x') :=
  renames_enter.bind fun _ => renames_finally hx renames_leave

theorem renames_inBlock {v : α → α} {block join : BlockRef} {x x' : Lower α}
    (hx : Renames ρ v x x') : Renames ρ id (inBlock block join x) (inBlock block join x') :=
  (renames_build (Build.renames_moveTo _)).bind fun _ =>
    (renames_inFrame hx).bind fun _ => renames_closeBlock join

theorem renames_inFunction {v : α → α} (pos : Position) (name : String) (params : List String)
    {x x' : Lower α} (hx : Renames ρ v x x') :
    Renames ρ (·.rename ρ.name) (inFunction pos name params x)
      (inFunction pos (ρ.name name) params x') := by
  intro s hs
  refine Renames.bind_get hs ?_
  refine ((renames_define pos name params).bind fun f => ?_) s hs
  refine Renames.bind (v := id) (.modify (fun _ => rfl) fun _ => rfl) fun _ => ?_
  refine (renames_inFrame (v := id) ?_).bind fun _ => ?_
  · refine (renames_bindParams pos f 0 params).bind fun _ => ?_
    refine hx.bind fun _ => ?_
    exact renames_closeFunction.bind fun _ => renames_verify pos f
  · exact Renames.bind (v := id) (.modify (fun _ => rfl) fun _ => rfl) fun _ => .pure rfl

theorem renames_createBlock (name : String) :
    Renames ρ id (build (.createBlock name)) (build (.createBlock name)) :=
  renames_build (Build.renames_createBlock name)

theorem renames_moveTo (point : Option BlockRef) :
    Renames ρ id (build (.moveTo point)) (build (.moveTo point)) :=
  renames_build (Build.renames_moveTo point)

variable {v : α → α} {cond cond' : Lower Operand} {body body' : Lower α}

theorem renames_ifThen (hc : Renames ρ (·.rename ρ.name) cond cond') (hb : Renames ρ v body body') :
    Renames ρ (·.rename ρ.name) (ifThen cond body) (ifThen cond' body') := by
  refine hc.bind fun c => ?_
  refine (renames_createBlock "then").bind fun yes => ?_
  refine (renames_createBlock "ifcont").bind fun join => ?_
  refine (renames_emit (.condBr c (some yes) (some join))).bind fun _ => ?_
  refine (renames_inBlock hb).bind fun _ => ?_
  exact (renames_moveTo (some join)).bind fun _ => .pure rfl

theorem renames_ifElse {other other' : Lower α} (hc : Renames ρ (·.rename ρ.name) cond cond')
    (hb : Renames ρ v body body') (ho : Renames ρ v other other') :
    Renames ρ (·.rename ρ.name) (ifElse cond body other) (ifElse cond' body' other') := by
  refine hc.bind fun c => ?_
  refine (renames_createBlock "then").bind fun yes => ?_
  refine (renames_createBlock "else").bind fun no => ?_
  refine (renames_createBlock "ifcont").bind fun join => ?_
  refine (renames_emit (.condBr c (some yes) (some no))).bind fun _ => ?_
  refine (renames_inBlock hb).bind fun _ => ?_
  refine (renames_inBlock ho).bind fun _ => ?_
  exact (renames_moveTo (some join)).bind fun _ => .pure rfl

theorem renames_whileLoop (hc : Renames ρ (·.rename ρ.name) cond cond')
    (hb : Renames ρ v body body') :
    Renames ρ (·.rename ρ.name) (whileLoop cond body) (whileLoop cond' body') := by
  refine (renames_createBlock "loopstart").bind fun head => ?_
  refine (renames_createBlock "loop").bind fun loop => ?_
  refine (renames_createBlock "afterloop").bind fun after => ?_
  refine (renames_emit (.br (some head))).bind fun _ => ?_
  refine (renames_moveTo (some head)).bind fun _ => ?_
  refine (renames_inFrame (v := id) ?_).bind fun _ => .pure rfl
  refine hc.bind fun c => ?_
  refine (renames_emit (.condBr c (some loop) (some after))).bind fun _ => ?_
  refine (renames_moveTo (some loop)).bind fun _ => ?_
  refine hb.bind fun _ => ?_
  exact (renames_closeBlock head).bind fun _ => renames_moveTo (some after)

theorem renames_forLoop {var : String} {start start' step step' : Lower Operand}
    (hs : Renames ρ (·.rename ρ.name) start start') (hb : Renames ρ v body body')
    (hp : Renames ρ (·.rename ρ.name) step step') (hc : Renames ρ (·.rename ρ.name) cond cond') :
    Renames ρ (·.rename ρ.name) (forLoop pos var start body step cond)
      (forLoop pos var start' body' step' cond') := by
  refine hs.bind fun first => ?_
  refine (renames_inFrame (v := id) ?_).bind fun _ => .pure rfl
  refine (renames_newVariable rfl).bind fun slot => ?_
  refine (renames_emit (.store slot first)).bind fun _ => ?_
  refine (renames_createBlock "forbody").bind fun loop => ?_
  refine (renames_createBlock "forafter").bind fun after => ?_
  refine (renames_emit (.br (some loop))).bind fun _ => ?_
  refine (renames_moveTo (some loop)).bind fun _ => ?_
  refine hb.bind fun _ => ?_
  refine hp.bind fun increment => ?_
  refine hc.bind fun c => ?_
  refine (renames_emit (.load slot)).bind fun current => ?_
  refine (renames_build (Build.renames_arithmetic .add current increment)).bind fun next => ?_
  refine (renames_emit (.store slot next)).bind fun _ => ?_
  refine (renames_emit (.condBr c (some loop) (some after))).bind fun _ => ?_
  exact renames_moveTo (some after)

theorem renames_ret {value value' : Lower Operand} (hv : Renames ρ (·.rename ρ.name) value value') :
    Renames ρ (·.rename ρ.name) (ret pos value) (ret pos value') := by
  refine renames_currentFunction.bind fun f => ?_
  refine hv.bind fun x => ?_
  rw [Operand.ty_rename, show (f.rename ρ.name).ret = f.ret from rfl]
  refine renames_guard rfl ?_
  refine (renames_emit (.ret (some x))).bind fun _ => ?_
  refine (renames_createBlock "afterret").bind fun after => ?_
  exact (renames_moveTo (some after)).bind fun _ => .pure rfl

theorem renames_funcDef (h : Plain name) {params : List String} (hb : Renames ρ v body body') :
    Renames ρ (·.rename ρ.name) (funcDef pos name params body) (funcDef pos name params body') := by
  have hfun := renames_inFunction pos name params hb
  rw [ρ.name_of_plain h] at hfun
  refine (renames_lookup name).bind fun slot? => ?_
  refine renames_guard rfl ?_
  refine (renames_function? h).bind fun f? => ?_
  simp only [Option.isSome_map]
  refine renames_guard rfl ?_
  exact hfun.bind fun _ => .pure rfl

theorem renames_funcLit {params : List String} (hb : Renames ρ v body body') :
    Renames ρ (·.rename ρ.name) (funcLit pos params body) (funcLit pos params body') := by
  intro s hs
  refine Renames.bind_get hs ?_
  refine Renames.bind_at (v := id) hs ?_ fun _ t ht hn => ?_
  · refine ⟨Nat.le_succ _, fun _ => congrArg (EStateM.Result.ok _) ?_⟩
    change Lowering.mk _ _ _ _ _ _ _ = Lowering.mk _ _ _ _ _ _ _
    rw [Lowering.mk.injEq]
    refine ⟨rfl, rfl, rfl, ?_, rfl, rfl, rfl⟩
    simp only [Lowering.along]
    omega
  · obtain ⟨-, rfl⟩ := EStateM.Result.ok.inj ht
    have hfun := renames_inFunction pos (funcName s.nextFunc) params hb
    refine ((hfun.bind fun f => renames_functionValue f) _ hn).congr fun hc => ?_
    rw [ρ.name_funcName, hc s.nextFunc hs (Nat.lt_succ_self _)]
    rfl

/-! ## Trees -/

mutual

theorem renames_lower (n : Node) (hn : n.Named Plain) :
    Renames ρ (·.rename ρ.name) (lower n) (lower n) := by
  match n with
  | .number _ x => exact .pure rfl
  | .ident pos name => exact renames_readVariable hn pos
  | .unary _ op x =>
    simp only [lower, build_bind]
    refine (renames_lower x hn).bind fun y => ?_
    refine (renames_requireReal _ x.pos y).bind fun y => ?_
    refine (renames_emit (.toBool y)).bind fun b => ?_
    exact (renames_emit (.not b)).bind fun c => renames_emit (.toReal c)
  | .binary pos op l r =>
    unfold lower
    split
    · split
      · exact (renames_lower r hn.2).bind fun y => renames_assign hn.1 _ _ _ y
      · exact .reject rfl
    · refine (renames_lower l hn.1).bind fun x => ?_
      exact (renames_lower r hn.2).bind fun y => renames_binary pos op x y
  | .call pos builtin name args =>
    refine (renames_callee hn.1 pos builtin).bind fun c => ?_
    refine (renames_lowerAll args hn.2).bind fun vs => ?_
    rw [Callee.params_rename, List.zip_map_right]
    exact (renames_checkArguments pos name _ _).bind fun vs => renames_call c vs
  | .collection _ _ elements =>
    exact (renames_lowerElements elements hn).bind fun vs => renames_collection vs
  | .conditional _ c body none =>
    exact renames_ifThen ((renames_lower c hn.1).bind fun x => renames_condition _ x)
      (renames_lowerAll body hn.2)
  | .conditional _ c body (some other) =>
    exact renames_ifElse ((renames_lower c hn.1).bind fun x => renames_condition _ x)
      (renames_lowerAll body hn.2.1) (renames_lowerAll other hn.2.2)
  | .whileLoop _ c body =>
    exact renames_whileLoop ((renames_lower c hn.1).bind fun x => renames_condition _ x)
      (renames_lowerAll body hn.2)
  | .forLoop pos var start stop none body =>
    exact renames_forLoop ((renames_lower start hn.2.1).bind fun x => renames_requireReal _ _ x)
      (renames_lowerAll body hn.2.2.2) (.pure rfl)
      ((renames_lower stop hn.2.2.1).bind fun x => renames_condition _ x)
  | .forLoop pos var start stop (some step) body =>
    exact renames_forLoop ((renames_lower start hn.2.1).bind fun x => renames_requireReal _ _ x)
      (renames_lowerAll body hn.2.2.2.2)
      ((renames_lower step hn.2.2.2.1).bind fun x => renames_requireReal _ _ x)
      ((renames_lower stop hn.2.2.1).bind fun x => renames_condition _ x)
  | .funcLit pos params body => exact renames_funcLit (renames_lowerAll body hn.2)
  | .funcDef pos name params body => exact renames_funcDef hn.1 (renames_lowerAll body hn.2.2)
  | .hostDecl pos name params => exact renames_hostDecl hn.1 pos params
  | .ret _ x => exact renames_ret (renames_lower x hn)

theorem renames_lowerAll (ns : List Node) (hn : Node.NamedAll Plain ns) :
    Renames ρ (List.map (·.rename ρ.name)) (lowerAll ns) (lowerAll ns) := by
  match ns with
  | [] => exact .pure rfl
  | n :: ns =>
    refine (renames_lower n hn.1).bind fun x => ?_
    exact (renames_lowerAll ns hn.2).bind fun xs => .pure rfl

theorem renames_lowerElements (ns : List Node) (hn : Node.NamedAll Plain ns) :
    Renames ρ (List.map (·.rename ρ.name)) (lowerElements ns) (lowerElements ns) := by
  match ns with
  | [] => exact .pure rfl
  | n :: ns =>
    unfold lowerElements
    refine renames_guard rfl ?_
    refine (renames_lower n hn.1).bind fun x => ?_
    refine (renames_requireReal _ n.pos x).bind fun x => ?_
    exact (renames_lowerElements ns hn.2).bind fun xs => .pure rfl

end

theorem renames_unit (p : Program) (hp : Node.NamedAll Plain p) (name : String) :
    Renames ρ (·.rename ρ.name) (unit p name) (unit p (ρ.name name)) := by
  refine (renames_define _ name []).bind fun f => ?_
  refine (renames_lowerAll p hp).bind fun _ => ?_
  refine renames_closeFunction.bind fun _ => ?_
  refine (renames_verify _ f).bind fun _ => ?_
  exact (renames_moveTo none).bind fun _ => .pure rfl

end Lower

namespace Lowering

variable {ρ : Renumbering}

theorem remove_rename (m : Module) (f : FuncRef) :
    (m.rename ρ.name).remove (f.rename ρ.name).name = (m.remove f.name).rename ρ.name := by
  unfold Module.remove
  rw [show (f.rename ρ.name).name = ρ.name f.name from rfl, m.find?_rename ρ.name_injective]
  cases m.find? f.name with
  | none => rfl
  | some g =>
    simp only [Option.map_some]
    rw [show (g.rename ρ.name).id = g.id from rfl]
    simp only [Module.modify, Module.rename, Module.mk.injEq, true_and, and_true]
    refine Array.ext_getElem? fun j => ?_
    simp only [Array.getElem?_modify, Array.getElem?_map]
    split
    · cases m.store[j]? <;> rfl
    · rfl

theorem trim_rename (m : Module) : (m.rename ρ.name).trim = m.trim.rename ρ.name := by
  simp only [Module.trim, Module.rename, Array.popWhile_map]
  rfl

theorem undo_module_rename (m : Module) (fs : List FuncRef) (n : Nat) :
    (((fs.map (·.rename ρ.name)).foldl (fun m f => m.remove f.name)
    (m.rename ρ.name)).truncateGlobals
      n).trim = (((fs.foldl (fun m f => m.remove f.name) m).truncateGlobals n).trim).rename
      ρ.name := by
  have hremove : (fs.map (·.rename ρ.name)).foldl (fun m f => m.remove f.name) (m.rename ρ.name) =
      (fs.foldl (fun m f => m.remove f.name) m).rename ρ.name := by
    induction fs generalizing m with
    | nil => rfl
    | cons f fs ih => rw [List.map_cons, List.foldl_cons, remove_rename, ih, List.foldl_cons]
  rw [hremove]
  exact trim_rename ((fs.foldl (fun m f => m.remove f.name) m).truncateGlobals n)

theorem undo_along {ρ : Counted} (s : Lowering) (fs : List FuncRef) (c : Checkpoint) :
    (s.along ρ).undo (fs.map (·.rename ρ.name)) c = (s.undo fs c).along ρ := by
  change Lowering.mk _ _ _ _ _ _ _ = Lowering.mk _ _ _ _ _ _ _
  rw [Lowering.mk.injEq]
  exact ⟨congrArg (Builder.mk · _) (undo_module_rename s.module fs c.globals), rfl, rfl,
    rfl, rfl, rfl,
    rfl⟩

theorem lower_along {s : Lowering} {ρ : Counted} (hu : ρ.unit s.nextUnit = ρ.units)
    (hf : ρ.here = s.nextFunc) {p : Program} (hp : Node.NamedAll Plain p) :
    s.nextFunc ≤ (s.lower p).2.nextFunc ∧ (ρ.Covers (s.lower p).2.nextFunc → (s.along ρ).lower p =
        (((s.lower p).1.mapError (·.rename ρ.name)).map (·.renumber ρ.toRenumbering),
          (s.lower p).2.along { ρ with units := ρ.units + 1 })) := by
  have hunit := Lower.renames_unit (ρ := { ρ with units := ρ.units + 1 }) p hp (unitName s.nextUnit)
    { s with nextUnit := s.nextUnit + 1, created := [] } (Nat.le_of_eq hf)
  have hname : ρ.name (unitName s.nextUnit) = unitName ρ.units := by rw [ρ.name_unitName, hu]
  have hstart : Lowering.along { ρ with units := ρ.units + 1 }
      { s with nextUnit := s.nextUnit + 1, created := [] } =
      { s.along ρ with nextUnit := ρ.units + 1, created := [] } := rfl
  unfold Lower.RenamesAt at hunit
  unfold Lowering.lower
  rw [show (s.along ρ).nextUnit = ρ.units from rfl]
  cases h : Lower.unit p (unitName s.nextUnit)
      { s with nextUnit := s.nextUnit + 1, created := [] } with
  | ok entry t =>
    rw [h, hname, hstart] at hunit
    exact ⟨hunit.1, fun hc => by
      rw [hunit.2 hc]
      rfl⟩
  | error e t =>
    rw [h, hname, hstart] at hunit
    exact ⟨hunit.1, fun hc => by
      rw [hunit.2 hc]
      exact Prod.ext rfl (undo_along t t.created s.checkpoint)⟩

end Lowering

end RealScript
