import RealScript.Code.Builder
import RealScript.Code.Optimize

/-! # Code on the workbench

Code that is put together by hand may be shared: a function can list the block of another one, an
instruction can stand in several blocks, and both stay at hand when nothing lists them any more. The
workbench keeps every block and every instruction once, under its reference, so that a change shows
wherever they stand.
-/

namespace RealScript

structure Workbench where
  module : Module
  point : Option BlockRef := none
  contents : List (BlockRef × List ResultRef) := []
  instrs : List Instr := []
  deriving Repr, Inhabited

namespace Workbench

def content (w : Workbench) (r : BlockRef) : List ResultRef := (w.contents.lookup r).getD []

def setContent (w : Workbench) (r : BlockRef) (is : List ResultRef) : Workbench :=
  { w with contents := (r, is) :: w.contents.filter (·.1 != r) }

def instr? (w : Workbench) (r : ResultRef) : Option Instr := w.instrs.find? (·.ref == r)

def modifyInstr (w : Workbench) (r : ResultRef) (g : Instr → Instr) : Workbench :=
  { w with instrs := w.instrs.map fun i => if i.ref == r then g i else i }

def block (w : Workbench) (r : BlockRef) : Block := ⟨r, (w.content r).filterMap w.instr?⟩

def blocks (w : Workbench) : List Block := w.contents.map fun (r, _) => w.block r

def fill (w : Workbench) (f : Function) : Function := f.mapBlocks fun b => w.block b.ref

def view (w : Workbench) : Module :=
  { w.module with store := w.module.store.map w.fill, loose := w.blocks }

/-! ### Putting code together -/

def function? (w : Workbench) : Option Function := do w.module.function? (← w.point).fn

def terminated (w : Workbench) : Bool :=
  w.point.any fun r => (w.block r).terminator?.isSome

def addBlock (w : Workbench) (f : Function) (name : String) : BlockRef × Workbench :=
  let (r, f) := f.addBlock name
  (r, Workbench.setContent { w with module := w.module.modify f.id fun _ => f } r [])

def createBlock (w : Workbench) (name : String) : Except Misuse (BlockRef × Workbench) :=
  match w.function? with
  | none => .error .createNowhere
  | some f => .ok (w.addBlock f name)

def allocate (w : Workbench) (name : String) (ty : Ty) : Except Misuse (Slot × Workbench) :=
  match w.function? with
  | none => .error .allocateNowhere
  | some f =>
    let (slot, f) := f.addSlot name ty
    .ok (slot, { w with module := w.module.modify f.id fun _ => f })

def emit (w : Workbench) (d : Draft) : Except Misuse (Operand × Workbench) :=
  match w.point, w.function? with
  | some point, some f =>
    if w.terminated then .error (.terminated d.op point.name)
    else
      let (ref, f) := f.newResult d.ty
      let w := w.setContent point (w.content point ++ [ref])
      .ok (.result ref, { w with
        module := w.module.modify f.id fun _ => f
        instrs := w.instrs ++ [d.instr ref point] })
  | _, _ => .error .emitNowhere

def arithmetic (w : Workbench) (op : Opcode) (l r : Operand) :
    Except Misuse (Operand × Workbench) :=
  if op.isArithmetic then w.emit (.arithmetic op l r) else .error (.notArithmetic op)

def logic (w : Workbench) (op : Opcode) (l r : Operand) : Except Misuse (Operand × Workbench) :=
  if op.isLogical then w.emit (.logic op l r) else .error (.notLogical op)

def pop (w : Workbench) (r : BlockRef) : Workbench := w.setContent r (w.content r).dropLast

def append (w : Workbench) (r : BlockRef) (i : ResultRef) : Workbench :=
  w.setContent r (w.content r ++ [i])

def graft (w : Workbench) (id : Nat) (r : BlockRef) : Workbench :=
  { w with module := w.module.modify id fun f => { f with blocks := f.blocks ++ [⟨r, []⟩] } }

/-! ### Optimising

The passes over the blocks that a function lists, one after the other. -/

/-- Puts a constant in the place of a result in the blocks that are listed. -/
def replaceUses (w : Workbench) (listed : List BlockRef) (r : ResultRef) (c : Operand) :
    Workbench :=
  let inside := listed.flatMap w.content
  { w with instrs := w.instrs.map fun i =>
      if inside.contains i.ref then i.mapArgs (Known.apply [(r, c)]) else i }

/-- Folds instructions of a block; `kept` has those that stay, last one first. -/
def foldInstrs (listed : List BlockRef) (n : Nat) (kept : List ResultRef) :
    List ResultRef → Workbench → Nat × List ResultRef × Workbench
  | [], w => (n, kept.reverse, w)
  | r :: rs, w =>
    match (w.instr? r).bind Instr.fold? with
    | some c => foldInstrs listed (n + 1) kept rs (w.replaceUses listed r c)
    | none => foldInstrs listed n (r :: kept) rs w

def foldConstants (w : Workbench) (listed : List BlockRef) : Nat × Workbench :=
  listed.foldl (fun (n, w) r =>
    let (n, kept, w) := foldInstrs listed n [] (w.content r) w
    (n, w.setContent r kept)) (0, w)

def foldBranches (w : Workbench) (listed : List BlockRef) : Nat × Workbench :=
  listed.foldl (fun (n, w) r =>
    match (w.block r).terminator?.bind Optimize.foldBranch? with
    | some t => (n + 1, w.modifyInstr t.ref fun _ => t)
    | none => (n, w)) (0, w)

/-- The listed blocks that control can get to from the first one, also by way of others. -/
def reached (w : Workbench) (listed : List BlockRef) : List BlockRef :=
  let first := listed.take 1
  let seen := Optimize.walk w.blocks (w.contents.length + 1) first first
  listed.filter seen.contains

/-- The first block that can take over the one that it jumps to, and that one. -/
def mergeable? (w : Workbench) (listed : List BlockRef) : Option (BlockRef × BlockRef) :=
  let bs := listed.map w.block
  bs.findSome? fun b => do
    let t ← b.terminator?
    guard (t.op = .br)
    let next ← (← t.targets[0]?)
    guard (next != b.ref && listed.head? != some next && Optimize.entries bs next = 1)
    return (b.ref, next)

/-- Takes over the instructions of the next block, which keeps them as well. -/
def absorb (w : Workbench) (r next : BlockRef) : Workbench :=
  let taken := w.content next
  let w := taken.foldl (fun w i => w.modifyInstr i fun i => { i with block := r }) w
  w.setContent r ((w.content r).dropLast ++ taken)

def mergeBlocks : (fuel : Nat) → (merged : Nat) → Workbench → (listed : List BlockRef) →
    Nat × Workbench × List BlockRef
  | 0, merged, w, listed => (merged, w, listed)
  | fuel + 1, merged, w, listed =>
    match w.mergeable? listed with
    | none => (merged, w, listed)
    | some (r, next) => mergeBlocks fuel (merged + 1) (w.absorb r next) (listed.erase next)

def removeDead : (fuel : Nat) → (dead : Nat) → Workbench → (listed : List BlockRef) →
    Nat × Workbench
  | 0, dead, w, _ => (dead, w)
  | fuel + 1, dead, w, listed =>
    let used := Optimize.used (listed.map w.block)
    let stays (r : ResultRef) := (w.instr? r).any fun i => !i.op.isPure || used.contains r
    let (n, kept) := listed.foldl (fun (n, v) r =>
      let is := (v.content r).filter stays
      (n + (v.content r).length - is.length, v.setContent r is)) (0, w)
    if n = 0 then (dead, w) else removeDead fuel (dead + n) kept listed

def measure (w : Workbench) (listed : List BlockRef) : Nat :=
  (w.instrs.length + listed.length + 1) * (w.contents.length + 1)

def round (w : Workbench) (listed : List BlockRef) : Stats × Workbench × List BlockRef :=
  let (folded, w) := w.foldConstants listed
  let (branches, w) := w.foldBranches listed
  let kept := w.reached listed
  let removed := listed.length - kept.length
  let (merged, w, listed) := mergeBlocks (w.measure kept) 0 w kept
  let (dead, w) := removeDead (w.measure listed) 0 w listed
  (⟨folded, branches, removed, merged, dead⟩, w, listed)

def rounds : (fuel : Nat) → Stats → Workbench → (listed : List BlockRef) →
    Stats × Workbench × List BlockRef
  | 0, total, w, listed => (total, w, listed)
  | fuel + 1, total, w, listed =>
    let (s, w, listed) := w.round listed
    if s.total = 0 then (total, w, listed) else rounds fuel (total.add s) w listed

/-- Optimises a function. Blocks that it does not list any more stay at hand. -/
def optimize (w : Workbench) (f : Function) : Stats × Workbench :=
  if f.native || !f.hasBody then ({}, w)
  else
    let listed := f.blocks.map Block.ref
    let (s, w, listed) := rounds (w.measure listed + 1) {} w listed
    (s, { w with module := w.module.modify f.id fun f =>
      { f with blocks := listed.map fun r => ⟨r, []⟩ } })

end Workbench

end RealScript
