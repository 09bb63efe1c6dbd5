import RealScript.Code.Builder
import RealScript.Code.Verify
import RealScript.Diagnostic
import RealScript.Scopes
import RealScript.Tree

/-! # Lowering trees to code

Each program of a session becomes a unit: an entry function and the functions defined in it. A unit
is lowered as a whole or leaves nothing behind but the numbers that its names used up.
-/

namespace RealScript

/-- What lowering works on. The globals and functions of a session outlive its units. -/
structure Lowering where
  builder : Builder
  scopes : Scopes := {}
  nextUnit : Nat := 0
  nextFunc : Nat := 0
  depth : Nat := 0
  created : List FuncRef := []
  hosts : List (String × Nat) := []
  deriving Repr, Inhabited

inductive LowerFailure where
  | diagnostic (d : Diagnostic)
  | misuse (m : Misuse)
  deriving Repr

abbrev Lower := EStateM LowerFailure Lowering

/-- What a session had before a unit: how many names and how many globals. -/
structure Checkpoint where
  names : Nat
  globals : Nat
  deriving DecidableEq, Repr, Inhabited

/-- A lowered program: its entry and all functions that it declared, the entry included. -/
structure CodeUnit where
  entry : FuncRef
  functions : List FuncRef
  before : Checkpoint
  deriving Repr, Inhabited

namespace Lowering

def ofModule (m : Module) (hosts : List (String × Nat)) : Lowering :=
  { builder := { module := m }, hosts := hosts }

def module (s : Lowering) : Module := s.builder.module

def setModule (s : Lowering) (m : Module) : Lowering :=
  { s with builder := { s.builder with module := m } }

def unitName (n : Nat) : String := "unit." ++ toString n

def funcName (n : Nat) : String := "func." ++ toString n

def checkpoint (s : Lowering) : Checkpoint := ⟨s.scopes.mark, s.module.globals.length⟩

/-- Removes functions by their names, and the globals and names behind a checkpoint. The numbers
that names used up stay used. -/
def undo (s : Lowering) (functions : List FuncRef) (c : Checkpoint) : Lowering :=
  let m := functions.foldl (fun m f => m.remove f.name) s.module
  { s with
    builder := { module := (m.truncateGlobals c.globals).trim }
    scopes := s.scopes.rollback c.names
    depth := 0
    created := [] }

def rollback (s : Lowering) (u : CodeUnit) : Lowering := s.undo u.functions u.before

end Lowering

namespace Lower

def build {α : Type} (b : Build α) : Lower α := fun s =>
  match b s.builder with
  | .ok a builder => .ok a { s with builder := builder }
  | .error m builder => .error (.misuse m) { s with builder := builder }

def reject {α : Type} (pos : Position) (cause : Cause) : Lower α :=
  throw (.diagnostic ⟨pos, cause⟩)

def lookup (name : String) : Lower (Option Slot) := return (← get).scopes.lookup name

def function? (name : String) : Lower (Option Function) := return (← get).module.find? name

def currentFunction : Lower FuncRef := do
  match (← get).builder.function? with
  | some f => return f.ref
  | none => throw (.misuse .emitNowhere)

def enter : Lower Unit := fun s =>
  match s.scopes.push (s.builder.function?.map Function.ref) with
  | .ok scopes => .ok () { s with scopes := scopes }
  | .error m => .error (.misuse m) s

def leave : Lower Unit := fun s =>
  match s.scopes.pop with
  | .ok scopes => .ok () { s with scopes := scopes }
  | .error m => .error (.misuse m) s

/-- Binds a name to a slot; `duplicate` is the cause if it is bound already. -/
def bind (pos : Position) (name : String) (slot : Slot) (duplicate : Cause) : Lower Unit := do
  let s ← get
  match s.scopes.declare? name slot with
  | some scopes => set { s with scopes := scopes }
  | none => reject pos duplicate

def declare (pos : Position) (name : String) (params : List String) (native : Bool) :
    Lower FuncRef := do
  let s ← get
  let types := params.map fun _ => Ty.real
  let declared := if native then s.module.declareNative name types .real
    else s.module.declare name types .real
  match declared with
  | .ok (f, m) =>
    let m := m.modify f.id fun f => { f with paramNames := params }
    set { s.setModule m with created := s.created ++ [f.ref] }
    return f.ref
  | .error e => reject pos (.backend e)

def closeFunction : Lower Unit := do
  unless (← get).builder.terminated do
    let _ ← build (.ret (some (.real 0)))

def closeBlock (target : BlockRef) : Lower Unit := do
  unless (← get).builder.terminated do
    let _ ← build (.br (some target))

def verify (pos : Position) (f : FuncRef) : Lower Unit := do
  match ((← get).module.function? f.id).map Function.verify with
  | some (.error e) => reject pos (.backend e)
  | _ => return ()

def functionValue (f : FuncRef) : Lower Operand := do
  let slot ← build (.allocate "functmp" f.ty)
  let _ ← build (.store slot (.func f))
  build (.load slot)

def requireReal (role : Role) (pos : Position) (v : Operand) : Lower Operand :=
  if v.ty = .real then return v else reject pos (.notReal role v.ty)

def condition (pos : Position) (v : Operand) : Lower Operand := do
  let v ← requireReal .condition pos v
  build (.toBool v)

def readVariable (pos : Position) (name : String) : Lower Operand := do
  match ← lookup name with
  | some slot => build (.load slot)
  | none =>
    match ← function? name with
    | some f => functionValue f.ref
    | none => reject pos (.unknownVariable name)

/-- A new slot for a name: a global in the bottom frame, else one of the current function. -/
def newSlot (name : String) (ty : Ty) : Lower Slot := do
  let s ← get
  if s.scopes.atGlobal then
    let (slot, m) := s.module.newGlobal name ty
    set (s.setModule m)
    return slot
  else build (.allocate name ty)

/-- A new variable; `duplicate` is the cause if the innermost frame has one of that name. -/
def newVariable (pos : Position) (name : String) (ty : Ty) (duplicate : Cause) : Lower Slot := do
  let slot ← newSlot name ty
  bind pos name slot duplicate
  return slot

/-- Stores a value under a name. In the body of a function a global is never written: the name gets
a slot of the function instead. -/
def assign (pos valuePos targetPos : Position) (name : String) (v : Operand) : Lower Operand := do
  if v.ty = .void then reject valuePos (.assignNothing name)
  let s ← get
  let visible := (s.scopes.lookup name).filter fun slot => !(slot.isGlobal && 0 < s.depth)
  match visible with
  | some slot =>
    if slot.ty ≠ v.ty then reject pos (.assignType name v.ty slot.ty)
    let _ ← build (.store slot v)
    return v
  | none =>
    if (← function? name).isSome then reject targetPos (.isFunction name)
    let slot ← newVariable targetPos name v.ty (.duplicate name)
    let _ ← build (.store slot v)
    return v

def arithmetic? : String → Option Opcode
  | "+" => some .add
  | "-" => some .sub
  | "*" => some .mul
  | "/" => some .div
  | _ => none

def comparison? : String → Option Predicate
  | "==" => some .eq
  | "!=" => some .ne
  | "<" => some .lt
  | ">" => some .gt
  | "<=" => some .le
  | ">=" => some .ge
  | _ => none

def logical? : String → Option Opcode
  | "and" => some .and
  | "or" => some .or
  | "xor" => some .xor
  | _ => none

def binary (pos : Position) (op : String) (l r : Operand) : Lower Operand := do
  if l.ty ≠ .real ∨ r.ty ≠ .real then reject pos (.needsReals op l.ty r.ty)
  match arithmetic? op, comparison? op, logical? op with
  | some code, _, _ => build (.arithmetic code l r)
  | none, some p, _ => build do .toReal (← .compare p l r)
  | none, none, some code => build do
    let x ← .toBool l
    let y ← .toBool r
    .toReal (← .logic code x y)
  | none, none, none => reject pos (.unknownBinary op)

def checkArguments (pos : Position) (callee : String) (want : List Ty)
    (args : List (Position × Operand)) : Lower (List Operand) := do
  if args.length ≠ want.length then
    reject pos (.argumentCount callee want.length args.length)
  ((args.zip want).zipIdx 1).forM fun ((arg, ty), index) =>
    unless arg.2.ty = ty do reject arg.1 (.argumentType callee index ty arg.2.ty)
  return args.map Prod.snd

/-- What a call leads to. It is settled before the arguments are lowered. -/
inductive Callee where
  | function (f : FuncRef)
  | slot (s : Slot) (arity : Nat)

def Callee.params : Callee → List Ty
  | .function f => f.params
  | .slot _ arity => List.replicate arity .real

def callee (pos : Position) (builtin : Bool) (name : String) : Lower Callee := do
  if builtin then
    match (← function? name).filter (·.native) with
    | some f => return .function f.ref
    | none => reject pos (.unknownBuiltin name)
  else
    match ← lookup name with
    | some slot =>
      match slot.ty with
      | .func arity => return .slot slot arity
      | ty => reject pos (.notFunction name ty)
    | none =>
      match ← function? name with
      | some f => return .function f.ref
      | none => reject pos (.unknownFunction name)

def call (c : Callee) (args : List Operand) : Lower Operand :=
  match c with
  | .function f => build (.call f args)
  | .slot s _ => build do .callIndirect (← .load s) args

def collection (elements : List Operand) : Lower Operand :=
  match elements.mapM Operand.number? with
  | some data => build (.constCollection data)
  | none => build (.makeCollection elements)

def hostDecl (pos : Position) (name : String) (params : List String) : Lower Operand := do
  unless (← get).hosts.contains (name, params.length) do
    reject pos (.unknownHost name params.length)
  if (← lookup name).isSome then reject pos (.isVariable name)
  match ← function? name with
  | some f =>
    if f.native && f.ref.params.length = params.length then return .real 0
    else reject pos (.isDefined name)
  | none =>
    let _ ← declare pos name params true
    return .real 0

def bindParams (pos : Position) (f : FuncRef) : (index : Nat) → List String → Lower Unit
  | _, [] => return ()
  | index, name :: names => do
    let slot ← newVariable pos name .real (.duplicateParameter name)
    let _ ← build (.store slot (.param f.id index name .real))
    bindParams pos f (index + 1) names

def openEntry (f : FuncRef) : Lower Unit := do
  let s ← get
  match s.module.function? f.id with
  | none => throw (.misuse .createNowhere)
  | some fn =>
    let (entry, fn) := fn.addBlock "entry"
    set { s with builder := { module := s.module.modify f.id fun _ => fn, point := some entry } }

def define (pos : Position) (name : String) (params : List String) : Lower FuncRef := do
  let f ← declare pos name params false
  openEntry f
  return f

/-- Runs a body in a frame of its own, which is closed even if the body fails. -/
def inFrame {α : Type} (body : Lower α) : Lower α := do
  enter
  try body finally leave

/-- Lowers a function with its body and comes back to the insertion point. -/
def inFunction {α : Type} (pos : Position) (name : String) (params : List String) (body : Lower α) :
    Lower FuncRef := do
  let saved := (← get).builder.point
  let f ← define pos name params
  modify fun s => { s with depth := s.depth + 1 }
  inFrame do
    bindParams pos f 0 params
    let _ ← body
    closeFunction
    verify pos f
  modify fun s => { s with depth := s.depth - 1, builder := { s.builder with point := saved } }
  return f

/-- Lowers a body into a block, in a frame of its own, and jumps on behind it. -/
def inBlock {α : Type} (block join : BlockRef) (body : Lower α) : Lower Unit := do
  build (.moveTo (some block))
  let _ ← inFrame body
  closeBlock join

def ifThen {α : Type} (cond : Lower Operand) (body : Lower α) : Lower Operand := do
  let c ← cond
  let yes ← build (.createBlock "then")
  let join ← build (.createBlock "ifcont")
  let _ ← build (.condBr c (some yes) (some join))
  inBlock yes join body
  build (.moveTo (some join))
  return .real 0

def ifElse {α : Type} (cond : Lower Operand) (body otherwise : Lower α) : Lower Operand := do
  let c ← cond
  let yes ← build (.createBlock "then")
  let no ← build (.createBlock "else")
  let join ← build (.createBlock "ifcont")
  let _ ← build (.condBr c (some yes) (some no))
  inBlock yes join body
  inBlock no join otherwise
  build (.moveTo (some join))
  return .real 0

/-- A loop that tests its condition in front of each pass. Condition and body share a frame. -/
def whileLoop {α : Type} (cond : Lower Operand) (body : Lower α) : Lower Operand := do
  let head ← build (.createBlock "loopstart")
  let loop ← build (.createBlock "loop")
  let after ← build (.createBlock "afterloop")
  let _ ← build (.br (some head))
  build (.moveTo (some head))
  inFrame do
    let c ← cond
    let _ ← build (.condBr c (some loop) (some after))
    build (.moveTo (some loop))
    let _ ← body
    closeBlock head
    build (.moveTo (some after))
  return .real 0

/-- A loop with a variable. Behind each pass come the step, the condition to go on, and the addition
of the step to the variable. -/
def forLoop {α : Type} (pos : Position) (var : String) (start : Lower Operand) (body : Lower α)
    (step cond : Lower Operand) : Lower Operand := do
  let first ← start
  inFrame do
    let slot ← newVariable pos var .real (.duplicate var)
    let _ ← build (.store slot first)
    let loop ← build (.createBlock "forbody")
    let after ← build (.createBlock "forafter")
    let _ ← build (.br (some loop))
    build (.moveTo (some loop))
    let _ ← body
    let increment ← step
    let c ← cond
    let current ← build (.load slot)
    let next ← build (.arithmetic .add current increment)
    let _ ← build (.store slot next)
    let _ ← build (.condBr c (some loop) (some after))
    build (.moveTo (some after))
  return .real 0

def funcLit {α : Type} (pos : Position) (params : List String) (body : Lower α) :
    Lower Operand := do
  let s ← get
  set { s with nextFunc := s.nextFunc + 1 }
  functionValue (← inFunction pos (Lowering.funcName s.nextFunc) params body)

def funcDef {α : Type} (pos : Position) (name : String) (params : List String) (body : Lower α) :
    Lower Operand := do
  if (← lookup name).isSome then reject pos (.isVariable name)
  if (← function? name).isSome then reject pos (.isDefined name)
  let _ ← inFunction pos name params body
  return .real 0

/-- Returns a value. What comes behind goes to a block that nothing leads to. -/
def ret (pos : Position) (value : Lower Operand) : Lower Operand := do
  let f ← currentFunction
  let v ← value
  if v.ty ≠ f.ret then reject pos (.returnType f.ret v.ty)
  let _ ← build (.ret (some v))
  let after ← build (.createBlock "afterret")
  build (.moveTo (some after))
  return v

mutual

def lower : Node → Lower Operand
  | .number _ x => return .real x
  | .ident pos name => readVariable pos name
  | .unary _ op x => do
    let v ← requireReal (.operand op) x.pos (← lower x)
    build do .toReal (← .not (← .toBool v))
  | .binary pos op l r =>
    if op = "=" then
      match l with
      | .ident targetPos name => do
        let v ← lower r
        assign pos r.pos targetPos name v
      | l => reject l.pos .assignTarget
    else do
      let x ← lower l
      let y ← lower r
      binary pos op x y
  | .call pos builtin name args => do
    let c ← callee pos builtin name
    let vs ← lowerAll args
    let vs ← checkArguments pos name c.params ((args.map Node.pos).zip vs)
    call c vs
  | .collection _ _ elements => do
    collection (← lowerElements elements)
  | .conditional _ c body none => ifThen (do condition c.pos (← lower c)) (lowerAll body)
  | .conditional _ c body (some otherwise) =>
    ifElse (do condition c.pos (← lower c)) (lowerAll body) (lowerAll otherwise)
  | .whileLoop _ c body => whileLoop (do condition c.pos (← lower c)) (lowerAll body)
  | .forLoop pos var start stop none body =>
    forLoop pos var (do requireReal .loopStart start.pos (← lower start)) (lowerAll body)
      (pure (.real 1)) (do condition stop.pos (← lower stop))
  | .forLoop pos var start stop (some step) body =>
    forLoop pos var (do requireReal .loopStart start.pos (← lower start)) (lowerAll body)
      (do requireReal .loopStep step.pos (← lower step)) (do condition stop.pos (← lower stop))
  | .funcLit pos params body => funcLit pos params (lowerAll body)
  | .funcDef pos name params body => funcDef pos name params (lowerAll body)
  | .hostDecl pos name params => hostDecl pos name params
  | .ret _ x => ret x.pos (lower x)

def lowerAll : List Node → Lower (List Operand)
  | [] => return []
  | n :: ns => do
    let v ← lower n
    return v :: (← lowerAll ns)

/-- Elements of a collection: reals, and no collections written out in them. -/
def lowerElements : List Node → Lower (List Operand)
  | [] => return []
  | n :: ns => do
    if n.isCollection then reject n.pos .nestedCollection
    let v ← requireReal .element n.pos (← lower n)
    return v :: (← lowerElements ns)

end

def unit (p : Program) (name : String) : Lower FuncRef := do
  let f ← define {} name []
  let _ ← lowerAll p
  closeFunction
  verify {} f
  build (.moveTo none)
  return f

end Lower

/-- Lowers a program as the next unit. Lowering is all or nothing: on failure the functions, globals
and names that the unit introduced are removed again. -/
def Lowering.lower (s : Lowering) (p : Program) : Except LowerFailure CodeUnit × Lowering :=
  match Lower.unit p (unitName s.nextUnit) { s with nextUnit := s.nextUnit + 1, created := [] } with
  | .ok entry t => (.ok ⟨entry, t.created, s.checkpoint⟩, { t with created := [] })
  | .error failure t => (.error failure, t.undo t.created s.checkpoint)

end RealScript
