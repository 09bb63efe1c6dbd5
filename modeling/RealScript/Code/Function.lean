import RealScript.Code.Error

/-! # Instructions, blocks and functions -/

namespace RealScript

/-- What an instruction does and to what. Which parts count depends on the operation. -/
structure Operation where
  op : Opcode
  args : List Operand := []
  targets : List (Option BlockRef) := []
  slot : Option Slot := none
  callee : Option FuncRef := none
  pred : Predicate := .eq
  data : List Float := []
  deriving Repr, Inhabited

/-- An operation in its place: its result and the block that it was emitted into. -/
structure Instr extends Operation where
  ref : ResultRef
  block : BlockRef
  deriving Repr, Inhabited

/-- An instruction that was not emitted yet: what it does and the type of its result. -/
structure Draft extends Operation where
  ty : Ty
  deriving Repr, Inhabited

def Draft.instr (d : Draft) (ref : ResultRef) (block : BlockRef) : Instr :=
  { d.toOperation with ref := ref, block := block }

namespace Instr

def isTerminator (i : Instr) : Bool := i.op.isTerminator

def mapArgs (f : Operand → Operand) (i : Instr) : Instr := { i with args := i.args.map f }

def uses (i : Instr) : List ResultRef := i.args.filterMap Operand.result?

end Instr

structure Block where
  ref : BlockRef
  instrs : List Instr := []
  deriving Repr, Inhabited

namespace Block

def terminator? (b : Block) : Option Instr := b.instrs.getLast?.filter Instr.isTerminator

def successors (b : Block) : List (Option BlockRef) :=
  match b.terminator? with
  | some t => t.targets
  | none => []

def mapInstrs (f : Instr → Instr) (b : Block) : Block := { b with instrs := b.instrs.map f }

def push (b : Block) (i : Instr) : Block := { b with instrs := b.instrs ++ [i] }

end Block

/-- A function with blocks, the first of which is its entry, or a native one whose body is
supplied by the machine. -/
structure Function where
  ref : FuncRef
  paramNames : List String
  native : Bool := false
  slots : List Slot := []
  blocks : List Block := []
  registers : Nat := 0
  emitted : Nat := 0
  labels : List String := []
  listed : Bool := true
  deriving Repr, Inhabited

namespace Function

def id (f : Function) : Nat := f.ref.id

def name (f : Function) : String := f.ref.name

def hasBody (f : Function) : Bool := !f.blocks.isEmpty

def block? (f : Function) (r : BlockRef) : Option Block := f.blocks.find? (·.ref == r)

def param (f : Function) (index : Nat) : Operand :=
  match f.ref.params[index]? with
  | some ty => .param f.id index (f.paramNames.getD index "") ty
  | none => .hole

/-- Appends a block. A name that was asked for before gets a number behind it. -/
def addBlock (f : Function) (name : String) : BlockRef × Function :=
  let used := f.labels.count name
  let unique := if used = 0 then name else name ++ "." ++ toString used
  let ref : BlockRef := ⟨f.id, f.labels.length, unique⟩
  (ref, { f with blocks := f.blocks ++ [{ ref := ref }], labels := name :: f.labels })

def addSlot (f : Function) (name : String) (ty : Ty) : Slot × Function :=
  let slot : Slot := ⟨name, ty, .activation f.id, f.slots.length⟩
  (slot, { f with slots := f.slots ++ [slot] })

def mapBlocks (g : Block → Block) (f : Function) : Function := { f with blocks := f.blocks.map g }

def modifyBlock (f : Function) (r : BlockRef) (g : Block → Block) : Function :=
  f.mapBlocks fun b => if b.ref == r then g b else b

/-- The reference of the next instruction. A result that is not void gets a register. -/
def newResult (f : Function) (ty : Ty) : ResultRef × Function :=
  let register := if ty = .void then none else some f.registers
  (⟨f.id, f.emitted, register, ty⟩, { f with
    registers := if ty = .void then f.registers else f.registers + 1
    emitted := f.emitted + 1 })

def emit (f : Function) (point : BlockRef) (d : Draft) : ResultRef × Function :=
  let (ref, f) := f.newResult d.ty
  (ref, f.modifyBlock point (·.push (d.instr ref point)))

def defines (f : Function) (r : ResultRef) : Bool :=
  f.blocks.any fun b => b.instrs.any (·.ref == r)

end Function

end RealScript
