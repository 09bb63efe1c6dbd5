import RealScript.Code.Builder
import RealScript.Code.Verify
import RealScript.Proofs.Stateful

/-! # Renaming functions

Code refers to functions by number and only carries their names along. So nothing that builds or
checks code depends on the names, as long as different functions keep different ones.
-/

namespace RealScript

def FuncRef.rename (ρ : String → String) (f : FuncRef) : FuncRef := { f with name := ρ f.name }

namespace Operand

def rename (ρ : String → String) : Operand → Operand
  | .func f => .func (f.rename ρ)
  | x => x

variable (ρ : String → String) (x : Operand)

@[simp] theorem rename_real (x : Float) : (real x).rename ρ = .real x := rfl

@[simp] theorem rename_truth (b : Bool) : (truth b).rename ρ = .truth b := rfl

@[simp] theorem rename_result (r : ResultRef) : (result r).rename ρ = .result r := rfl

@[simp] theorem rename_func (f : FuncRef) : (func f).rename ρ = .func (f.rename ρ) := rfl

@[simp] theorem rename_param (fn index : Nat) (name : String) (ty : Ty) :
    (param fn index name ty).rename ρ = .param fn index name ty := rfl

@[simp] theorem ty_rename : (x.rename ρ).ty = x.ty := by cases x <;> rfl

@[simp] theorem number?_rename : (x.rename ρ).number? = x.number? := by cases x <;> rfl

@[simp] theorem result?_rename : (x.rename ρ).result? = x.result? := by cases x <;> rfl

end Operand

def Operation.rename (ρ : String → String) (o : Operation) : Operation :=
  { o with args := o.args.map (·.rename ρ), callee := o.callee.map (·.rename ρ) }

def Instr.rename (ρ : String → String) (i : Instr) : Instr :=
  { i with toOperation := i.toOperation.rename ρ }

def Draft.rename (ρ : String → String) (d : Draft) : Draft :=
  { d with toOperation := d.toOperation.rename ρ }

def Block.rename (ρ : String → String) (b : Block) : Block :=
  { b with instrs := b.instrs.map (·.rename ρ) }

def Function.rename (ρ : String → String) (f : Function) : Function :=
  { f with ref := f.ref.rename ρ, blocks := f.blocks.map (·.rename ρ) }

def Module.rename (ρ : String → String) (m : Module) : Module :=
  { m with store := m.store.map (·.rename ρ), loose := m.loose.map (·.rename ρ) }

def Builder.rename (ρ : String → String) (b : Builder) : Builder :=
  { b with module := b.module.rename ρ }

def CodeCause.rename (ρ : String → String) : CodeCause → CodeCause
  | .callCount name want got => .callCount (ρ name) want got
  | c => c

def CodeError.rename (ρ : String → String) (e : CodeError) : CodeError :=
  { e with function := ρ e.function, cause := e.cause.rename ρ }

variable (ρ : String → String)

theorem Block.terminator?_rename (b : Block) :
    (b.rename ρ).terminator? = b.terminator?.map (·.rename ρ) := by
  simp only [terminator?, rename, List.getLast?_map]
  cases b.instrs.getLast? with
  | none => rfl
  | some i =>
    have hi : (i.rename ρ).isTerminator = i.isTerminator := rfl
    simp only [Option.map_some, Option.filter_some, hi]
    cases i.isTerminator <;> rfl

namespace Function

theorem addBlock_rename (f : Function) (name : String) :
    (f.rename ρ).addBlock name = ((f.addBlock name).1, (f.addBlock name).2.rename ρ) := by
  simp [addBlock, rename, Function.id, FuncRef.rename, Block.rename]

theorem addSlot_rename (f : Function) (name : String) (ty : Ty) :
    (f.rename ρ).addSlot name ty = ((f.addSlot name ty).1, (f.addSlot name ty).2.rename ρ) := by
  simp [addSlot, rename, Function.id, FuncRef.rename]

theorem emit_rename (f : Function) (point : BlockRef) (d : Draft) :
    (f.rename ρ).emit point (d.rename ρ) = ((f.emit point d).1, (f.emit point d).2.rename ρ) := by
  simp only [emit, newResult, modifyBlock, mapBlocks, rename, Function.id, FuncRef.rename,
    Draft.rename, List.map_map, Prod.mk.injEq, true_and, Function.mk.injEq, and_true]
  refine ⟨rfl, List.map_congr_left fun b _ => ?_, rfl⟩
  simp only [Function.comp_apply, Block.rename]
  split
  · simp only [Block.push, Draft.instr, Instr.rename, List.map_append, List.map_cons, List.map_nil]
    rfl
  · rfl

theorem block?_rename (f : Function) (r : BlockRef) :
    (f.rename ρ).block? r = (f.block? r).map (·.rename ρ) := by
  simp only [block?, rename, List.find?_map]
  rfl

theorem demand_mapError {ok : Bool} {cause : CodeCause} (h : cause.rename ρ = cause) :
    (demand ok cause).mapError (CodeCause.rename ρ) = demand ok cause := by
  cases ok
  · exact congrArg Except.error h
  · rfl

theorem mapError_bind {α β : Type} (g : CodeCause → CodeCause) (x : Except CodeCause α)
    (f : α → Except CodeCause β) :
    (x >>= f).mapError g = x.mapError g >>= fun a => (f a).mapError g := by
  cases x <;> rfl

theorem mapError_forM {ε ε' α β : Type} (g : ε → ε') (h : α → β) (f : α → Except ε Unit)
    (f' : β → Except ε' Unit) (hf : ∀ x, f' (h x) = (f x).mapError g) (xs : List α) :
    (xs.map h).forM f' = (xs.forM f).mapError g := by
  induction xs with
  | nil => rfl
  | cons x xs ih =>
    change (f' (h x) >>= fun _ => (xs.map h).forM f') = (f x >>= fun _ => xs.forM f).mapError g
    rw [hf, ih]
    cases f x <;> rfl

section

variable (f : Function)

include f

theorem defines_rename (r : ResultRef) : (f.rename ρ).defines r = f.defines r := by
  simp only [defines, rename, List.any_map]
  congr 1
  funext b
  simp only [Function.comp_apply, Block.rename, List.any_map]
  rfl

theorem verifyOperand_rename (op : Opcode) (want : Ty) (x : Operand) :
    (f.rename ρ).verifyOperand op want (x.rename ρ) =
      (f.verifyOperand op want x).mapError (CodeCause.rename ρ) := by
  unfold verifyOperand
  cases x with
  | result r =>
    simp only [Operand.rename_result, mapError_bind, defines_rename]
    rw [demand_mapError ρ rfl, demand_mapError ρ rfl]
    rfl
  | param =>
    simp only [Operand.rename_param, mapError_bind]
    rw [demand_mapError ρ rfl, demand_mapError ρ rfl]
    rfl
  | hole => rfl
  | real | truth | func =>
    simp only [Operand.rename_real, Operand.rename_truth, Operand.rename_func]
    exact (demand_mapError ρ rfl).symm

theorem verifyOperands_rename (o : Operation) (want : Ty) (n : Nat) :
    (f.rename ρ).verifyOperands (o.rename ρ) want n =
      (f.verifyOperands o want n).mapError (CodeCause.rename ρ) := by
  simp only [verifyOperands, mapError_bind, Operation.rename, List.length_map]
  rw [demand_mapError ρ rfl,
    mapError_forM (CodeCause.rename ρ) _ _ _ (verifyOperand_rename ρ f o.op want)]

theorem verifyTarget_rename (t : Option BlockRef) :
    (f.rename ρ).verifyTarget t = (f.verifyTarget t).mapError (CodeCause.rename ρ) := by
  simp only [verifyTarget]
  rw [demand_mapError ρ rfl]
  simp only [rename, List.any_map]
  rfl

theorem verifyCall_rename (op : Opcode) (c : FuncRef) (args : List Operand) :
    ((args.map (·.rename ρ)).zip c.params).forM
    (fun (x, ty) => (f.rename ρ).verifyOperand op ty x) =
      ((args.zip c.params).forM fun (x, ty) => f.verifyOperand op ty x).mapError
        (CodeCause.rename ρ) := by
  rw [List.zip_map_left]
  refine mapError_forM _ _ _ _ ?_ _
  rintro ⟨x, ty⟩
  exact verifyOperand_rename ρ f op ty x

theorem verifyOperation_rename (o : Operation) : (f.rename ρ).verifyOperation (o.rename ρ) =
      (f.verifyOperation o).mapError (CodeCause.rename ρ) := by
  have hops := verifyOperands_rename ρ f o
  have htarget := verifyTarget_rename ρ f
  have hop : (o.rename ρ).op = o.op := rfl
  have hlength : (o.rename ρ).args.length = o.args.length := by simp [Operation.rename]
  unfold verifyOperation
  rw [hop]
  cases h : o.op with
  | constColl | unknown => rfl
  | makeColl => rw [hops, hlength]
  | add | sub | mul | div | cmp | and | or | xor | not | toReal | toBool => exact hops _ _
  | load =>
    rw [show (o.rename ρ).slot = o.slot from rfl]
    cases o.slot with
    | none => rfl
    | some s =>
      simp only [mapError_bind]
      rw [demand_mapError ρ rfl]
      rfl
  | store =>
    rw [show (o.rename ρ).slot = o.slot from rfl]
    cases o.slot with
    | none => rfl
    | some s =>
      simp only [mapError_bind, hops, if_true]
      rw [demand_mapError ρ rfl]
      rfl
  | call =>
    simp only [Operation.rename]
    cases o.callee with
    | none => rfl
    | some c =>
      simp only [Option.map_some, mapError_bind, List.length_map, ← verifyCall_rename ρ f .call c]
      have hcount : demand (o.args.length = c.params.length)
          (.callCount (ρ c.name) c.params.length o.args.length) =
          (demand (o.args.length = c.params.length)
            (.callCount c.name c.params.length o.args.length)).mapError (CodeCause.rename ρ) := by
        cases h : decide (o.args.length = c.params.length) <;> rfl
      rw [← hcount]
      rfl
  | callIndirect =>
    simp only [Operation.rename]
    cases o.args with
    | nil => rfl
    | cons callee args =>
      simp only [List.map_cons, mapError_bind, List.length_map]
      rw [verifyOperand_rename,
        mapError_forM (CodeCause.rename ρ) _ _ _ (verifyOperand_rename ρ f .callIndirect .real)]
  | br =>
    dsimp only
    rw [show (o.rename ρ).targets = o.targets from rfl]
    split
    · exact htarget _
    · rfl
  | condBr =>
    dsimp only
    rw [show (o.rename ρ).targets = o.targets from rfl]
    split
    · simp only [hops, htarget, mapError_bind]
    · rfl
  | ret =>
    dsimp only
    rw [show (f.rename ρ).ref.ret = f.ref.ret from rfl]
    split
    · rw [demand_mapError ρ rfl]
      simp [Operation.rename]
    · exact hops _ _

theorem verifyInstrs_rename (r : BlockRef) (is : List Instr) :
    (f.rename ρ).verifyInstrs r (is.map (·.rename ρ)) =
      (f.verifyInstrs r is).mapError (CodeCause.rename ρ) := by
  induction is with
  | nil => rfl
  | cons i is ih =>
    simp only [List.map_cons, verifyInstrs, List.isEmpty_map, ih]
    split <;> simp only [mapError_bind, ← verifyOperation_rename ρ f] <;>
      rw [demand_mapError ρ rfl, demand_mapError ρ rfl] <;> rfl

theorem verifyBlock_rename (b : Block) :
    (f.rename ρ).verifyBlock (b.rename ρ) = (f.verifyBlock b).mapError (CodeCause.rename ρ) := by
  simp only [verifyBlock, mapError_bind, Block.rename, List.isEmpty_map, verifyInstrs_rename]
  rw [demand_mapError ρ rfl, demand_mapError ρ rfl]
  rfl

theorem verify_rename : (f.rename ρ).verify = f.verify.mapError (CodeError.rename ρ) := by
  unfold verify
  rw [show (f.rename ρ).native = f.native from rfl,
    show (f.rename ρ).hasBody = f.hasBody by simp [hasBody, rename]]
  split
  · rfl
  · split
    · rfl
    · refine mapError_forM _ _ _ _ (fun b => ?_) _
      rw [verifyBlock_rename]
      cases f.verifyBlock b <;> rfl

end

end Function

namespace Module

variable (m : Module)

theorem function?_rename (k : Nat) :
    (m.rename ρ).function? k = (m.function? k).map (·.rename ρ) := by
  simp [function?, rename]

theorem modify_rename (k : Nat) (f : Function) :
    (m.rename ρ).modify k (fun _ => f.rename ρ) = (m.modify k fun _ => f).rename ρ := by
  simp only [modify, rename, Module.mk.injEq, true_and, and_true]
  refine Array.ext_getElem? fun j => ?_
  simp only [Array.getElem?_modify, Array.getElem?_map]
  split
  · simp [Function.comp_def]
  · rfl

theorem push_rename (f : Function) :
    { m.rename ρ with store := (m.rename ρ).store.push (f.rename ρ) } =
      Module.rename ρ { m with store := m.store.push f } := by
  simp [rename]

theorem block?_rename (r : BlockRef) : (m.rename ρ).block? r = (m.block? r).map (·.rename ρ) := by
  simp only [block?, function?_rename]
  cases m.function? r.fn with
  | none =>
    simp only [Option.map_none, Option.bind_none, Option.none_or, rename, List.find?_map]
    rfl
  | some f =>
    simp only [Option.map_some, Option.bind_some, Function.block?_rename]
    cases f.block? r with
    | none =>
      simp only [Option.map_none, Option.none_or, rename, List.find?_map]
      rfl
    | some b => rfl

theorem find?_rename {ρ : String → String} (hρ : Function.Injective ρ) (name : String) :
    (m.rename ρ).find? (ρ name) = (m.find? name).map (·.rename ρ) := by
  have hfunctions : (m.rename ρ).functions = m.functions.map (·.rename ρ) := by
    simp only [functions, rename, Array.toList_map, List.filter_map]
    rfl
  rw [find?, hfunctions, List.find?_map]
  congr 2
  funext f
  change (ρ f.name == ρ name) = (f.name == name)
  by_cases h : f.name = name
  · simp [h]
  · rw [beq_eq_false_iff_ne.mpr h, beq_eq_false_iff_ne.mpr fun he => h (hρ he)]

end Module

namespace Builder

variable (b : Builder)

theorem function?_rename : (b.rename ρ).function? = b.function?.map (·.rename ρ) := by
  simp only [function?, rename]
  cases b.point with
  | none => rfl
  | some r => exact Module.function?_rename ρ b.module r.fn

theorem terminated_rename : (b.rename ρ).terminated = b.terminated := by
  simp only [terminated, rename]
  cases b.point with
  | none => rfl
  | some r =>
    simp only [Option.bind_some, Module.block?_rename]
    cases b.module.block? r with
    | none => rfl
    | some blk => simp [Block.terminator?_rename]

end Builder

namespace Build

open Stateful

variable {α β : Type} {ρ : String → String}

def Renames (ρ : String → String) (v : α → α) (op op' : Build α) : Prop :=
  ∀ b, op' (b.rename ρ) = match op b with
    | .ok x b' => .ok (v x) (b'.rename ρ)
    | .error e b' => .error e (b'.rename ρ)

theorem renames_createBlock (name : String) :
    Renames ρ id (createBlock name) (createBlock name) := by
  intro b
  simp only [createBlock, bind_run, get_run, Builder.function?_rename]
  cases b.function? with
  | none => rfl
  | some f =>
    simp only [Option.map_some, Function.addBlock_rename, bind_run, set_run, pure_run]
    exact congrArg (fun m => EStateM.Result.ok _ { b.rename ρ with module := m })
      (Module.modify_rename ρ b.module _ _)

theorem renames_allocate (name : String) (ty : Ty) :
    Renames ρ id (allocate name ty) (allocate name ty) := by
  intro b
  simp only [allocate, bind_run, get_run, Builder.function?_rename]
  cases b.function? with
  | none => rfl
  | some f =>
    simp only [Option.map_some, Function.addSlot_rename, bind_run, set_run, pure_run]
    exact congrArg (fun m => EStateM.Result.ok _ { b.rename ρ with module := m })
      (Module.modify_rename ρ b.module _ _)

theorem renames_moveTo (point : Option BlockRef) : Renames ρ id (moveTo point) (moveTo point) :=
  fun _ => rfl

theorem renames_emit (d : Draft) : Renames ρ (·.rename ρ) (emit d) (emit (d.rename ρ)) := by
  intro b
  simp only [emit, bind_run, get_run, Builder.terminated_rename, Builder.function?_rename]
  rw [show (b.rename ρ).point = b.point from rfl]
  cases b.point with
  | none => rfl
  | some point =>
    cases b.terminated with
    | true => rfl
    | false =>
      cases b.function? with
      | none => rfl
      | some f =>
        simp only [Bool.false_eq_true, if_false, Option.map_some, Function.emit_rename, bind_run,
          set_run, pure_run]
        exact congrArg (fun m => EStateM.Result.ok _ (Builder.mk m (some point)))
          (Module.modify_rename ρ b.module _ _)

theorem renames_arithmetic (op : Opcode) (l r : Operand) :
    Renames ρ (·.rename ρ) (arithmetic op l r) (arithmetic op (l.rename ρ) (r.rename ρ)) := by
  unfold arithmetic
  split
  · exact renames_emit (.arithmetic op l r)
  · exact fun _ => rfl

theorem renames_logic (op : Opcode) (l r : Operand) :
    Renames ρ (·.rename ρ) (logic op l r) (logic op (l.rename ρ) (r.rename ρ)) := by
  unfold logic
  split
  · exact renames_emit (.logic op l r)
  · exact fun _ => rfl

end Build

end RealScript
