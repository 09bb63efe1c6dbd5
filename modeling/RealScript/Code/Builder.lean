import RealScript.Code.Module

/-! # Building code

Instructions are emitted at an insertion point. Emitting without one, or behind the end of a block,
is a misuse that the caller has to rule out.
-/

namespace RealScript

inductive Misuse where
  | createNowhere
  | emitNowhere
  | allocateNowhere
  | terminated (op : Opcode) (block : String)
  | notArithmetic (op : Opcode)
  | notLogical (op : Opcode)
  | pushNobody
  | popBottom
  deriving DecidableEq, Repr

def Misuse.message : Misuse → String
  | .createNowhere => "ir: CreateBlock without an insertion point"
  | .emitNowhere => "ir: emit without an insertion point"
  | .allocateNowhere => "ir: Alloca without an insertion point"
  | .terminated op block => "ir: emit " ++ op.name ++ " into terminated block " ++ block
  | .notArithmetic op => "ir: " ++ op.name ++ " is not arithmetic"
  | .notLogical op => "ir: " ++ op.name ++ " is not logical"
  | .pushNobody => "Push called without an owning function"
  | .popBottom => "Pop called on the global frame"

namespace Draft

def constCollection (data : List Float) : Draft :=
  { op := .constColl, data := data, ty := .collection }

def makeCollection (elements : List Operand) : Draft :=
  { op := .makeColl, args := elements, ty := .collection }

def load (slot : Slot) : Draft := { op := .load, slot := some slot, ty := slot.ty }

def store (slot : Slot) (v : Operand) : Draft :=
  { op := .store, slot := some slot, args := [v], ty := .void }

def arithmetic (op : Opcode) (l r : Operand) : Draft := { op := op, args := [l, r], ty := .real }

def compare (p : Predicate) (l r : Operand) : Draft :=
  { op := .cmp, pred := p, args := [l, r], ty := .bool }

def logic (op : Opcode) (l r : Operand) : Draft := { op := op, args := [l, r], ty := .bool }

def not (v : Operand) : Draft := { op := .not, args := [v], ty := .bool }

def toBool (v : Operand) : Draft := { op := .toBool, args := [v], ty := .bool }

def toReal (v : Operand) : Draft := { op := .toReal, args := [v], ty := .real }

def call (f : FuncRef) (args : List Operand) : Draft :=
  { op := .call, callee := some f, args := args, ty := f.ret }

def callIndirect (callee : Operand) (args : List Operand) : Draft :=
  { op := .callIndirect, args := callee :: args, ty := .real }

def br (target : Option BlockRef) : Draft := { op := .br, targets := [target], ty := .void }

def condBr (c : Operand) (yes no : Option BlockRef) : Draft :=
  { op := .condBr, args := [c], targets := [yes, no], ty := .void }

def ret (v : Option Operand) : Draft := { op := .ret, args := v.toList, ty := .void }

end Draft

structure Builder where
  module : Module
  point : Option BlockRef := none
  deriving Repr, Inhabited

namespace Builder

def function? (b : Builder) : Option Function := do b.module.function? (← b.point).fn

def terminated (b : Builder) : Bool :=
  match b.point.bind b.module.block? with
  | some blk => blk.terminator?.isSome
  | none => false

end Builder

abbrev Build := EStateM Misuse Builder

namespace Build

/-- Appends a block to the current function without moving the insertion point. -/
def createBlock (name : String) : Build BlockRef := do
  let b ← get
  match b.function? with
  | none => throw .createNowhere
  | some f =>
    let (ref, f) := f.addBlock name
    set { b with module := b.module.modify f.id fun _ => f }
    return ref

def moveTo (point : Option BlockRef) : Build Unit := modify fun b => { b with point := point }

def allocate (name : String) (ty : Ty) : Build Slot := do
  let b ← get
  match b.function? with
  | none => throw .allocateNowhere
  | some f =>
    let (slot, f) := f.addSlot name ty
    set { b with module := b.module.modify f.id fun _ => f }
    return slot

def emit (d : Draft) : Build Operand := do
  let b ← get
  match b.point with
  | none => throw .emitNowhere
  | some point =>
    if b.terminated then throw (.terminated d.op point.name)
    match b.function? with
    | none => throw .emitNowhere
    | some f =>
      let (ref, f) := f.emit point d
      set { b with module := b.module.modify f.id fun _ => f }
      return .result ref

def constCollection (data : List Float) : Build Operand := emit (.constCollection data)

def makeCollection (elements : List Operand) : Build Operand := emit (.makeCollection elements)

def load (slot : Slot) : Build Operand := emit (.load slot)

def store (slot : Slot) (v : Operand) : Build Operand := emit (.store slot v)

def arithmetic (op : Opcode) (l r : Operand) : Build Operand :=
  if op.isArithmetic then emit (.arithmetic op l r) else throw (.notArithmetic op)

def compare (p : Predicate) (l r : Operand) : Build Operand := emit (.compare p l r)

def logic (op : Opcode) (l r : Operand) : Build Operand :=
  if op.isLogical then emit (.logic op l r) else throw (.notLogical op)

def not (v : Operand) : Build Operand := emit (.not v)

def toBool (v : Operand) : Build Operand := emit (.toBool v)

def toReal (v : Operand) : Build Operand := emit (.toReal v)

def call (f : FuncRef) (args : List Operand) : Build Operand := emit (.call f args)

def callIndirect (callee : Operand) (args : List Operand) : Build Operand :=
  emit (.callIndirect callee args)

def br (target : Option BlockRef) : Build Operand := emit (.br target)

def condBr (c : Operand) (yes no : Option BlockRef) : Build Operand := emit (.condBr c yes no)

def ret (v : Option Operand) : Build Operand := emit (.ret v)

end Build

end RealScript
