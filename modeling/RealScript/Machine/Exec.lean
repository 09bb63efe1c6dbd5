import RealScript.Code.Verify
import RealScript.Machine.Action

/-! # Running code

An activation of a function runs block after block until it returns. Calls nest up to a depth that
the machine sets, and every 256 block transitions an activation asks whether the run has to stop.
-/

namespace RealScript

structure Machine where
  module : Module
  natives : List (String × Native)
  maxDepth : Int := 10000
  context : Context := {}

structure Frame where
  args : List Value
  registers : Array Value
  slots : Array Value
  deriving Repr

namespace Frame

def ofFunction (f : Function) (args : List Value) : Frame :=
  { args := args
    registers := Array.replicate f.registers .zero
    slots := Array.replicate f.slots.length .zero }

def operand? (fr : Frame) : Operand → Option Value
  | .real x => some (.number x)
  | .truth b => some (.number (truthNumber b))
  | .param _ index _ _ => some (fr.args.getD index .zero)
  | .func f => some (.function (some f))
  | .result r => some ((r.register.bind (fr.registers[·]?)).getD .zero)
  | .hole => none

def operands? (fr : Frame) : List Operand → Option (List Value)
  | [] => some []
  | x :: xs =>
    match fr.operand? x with
    | none => none
    | some v =>
      match fr.operands? xs with
      | none => none
      | some vs => some (v :: vs)

/-- The operands that an operation looks at. A conjunction or disjunction looks at the second one
only if the first leaves the answer open, and a call of a missing function looks at no arguments. -/
def demanded (fr : Frame) (o : Operation) : List Operand :=
  let first := (o.args.head?.bind fr.operand?).getD .zero
  match o.op with
  | .constColl | .load | .br | .unknown _ => []
  | .store | .not | .toBool | .toReal | .condBr | .ret => o.args.take 1
  | .and => o.args.take (if first.toNumber != 0 then 2 else 1)
  | .or => o.args.take (if first.toNumber != 0 then 1 else 2)
  | .callIndirect => if first.toFunction.isSome then o.args else o.args.take 1
  | .makeColl | .call => o.args
  | .add | .sub | .mul | .div | .cmp | .xor => o.args.take 2

def record (fr : Frame) (r : ResultRef) (v : Value) : Frame :=
  match r.register with
  | some n => { fr with registers := fr.registers.setIfInBounds n v }
  | none => fr

end Frame

inductive Effect where
  | value (v : Value) (slots globals : Array Value)
  | call (callee : Option FuncRef) (args : List Value)
  | jump (target : Option BlockRef)
  | ret (v : Value)
  | fail (cause : RunCause)
  | missing

namespace Instr

/-- What the instruction asks for when its operands have the values `args`. -/
def apply (i : Instr) (args : List Value) (slots globals : Array Value) : Effect :=
  match i.op with
  | .constColl => .value (.collection i.data) slots globals
  | .makeColl => .value (.collection (args.map Value.toNumber)) slots globals
  | .load =>
    let held := i.slot.map fun s => (if s.isGlobal then globals else slots).getD s.index .zero
    .value (held.getD .zero) slots globals
  | .store =>
    let v := args.headD .zero
    match i.slot with
    | none => .value .zero slots globals
    | some s =>
      if s.isGlobal then .value .zero slots (globals.setIfInBounds s.index v)
      else .value .zero (slots.setIfInBounds s.index v) globals
  | .call => .call i.callee args
  | .callIndirect => .call (args.headD .zero).toFunction (args.drop 1)
  | .br => .jump (i.targets[0]?).join
  | .condBr =>
    let taken := if (args.headD .zero).toNumber != 0 then 0 else 1
    .jump (i.targets[taken]?).join
  | .ret => .ret (args.headD .zero)
  | op =>
    if op.isNumeric then
      let x := (args.getD 0 .zero).toNumber
      let y := (args.getD 1 .zero).toNumber
      match op.compute i.pred x y with
      | .inl z => .value (.number z) slots globals
      | .inr b => .value (.number (truthNumber b)) slots globals
    else .fail (.unknownOpcode op)

def effect (i : Instr) (fr : Frame) (globals : Array Value) : Effect :=
  match fr.operands? (fr.demanded i.toOperation) with
  | none => .missing
  | some args => i.apply args fr.slots globals

end Instr

structure Activation where
  function : Function
  depth : Nat
  frame : Frame
  block : BlockRef
  rest : List Instr
  next : Option BlockRef := none
  steps : Nat := 0
  deriving Repr

namespace Activation

def start? (f : Function) (args : List Value) (depth : Nat) : Option Activation :=
  f.blocks.head?.map fun b =>
    { function := f, depth := depth, frame := .ofFunction f args, block := b.ref, rest := b.instrs }

/-- Takes the result of the instruction at the front and goes on behind it. -/
def receive (act : Activation) (v : Value) : Activation :=
  match act.rest with
  | [] => act
  | i :: rest => { act with frame := act.frame.record i.ref v, rest := rest }

end Activation

inductive Turn where
  | go (act : Activation) (w : World)
  | call (callee : Function) (args : List Value)
  | done (v : Value)
  | fail (f : Fault) (w : World)
  deriving Repr

def checkEvery : Nat := 256

namespace Machine

def block? (m : Machine) (f : Function) (r : BlockRef) : Option Block :=
  (f.block? r).or (m.module.block? r)

def native? (m : Machine) (name : String) : Option Native := m.natives.lookup name

def interrupt? (m : Machine) (w : World) : Option Interrupt := m.context.interrupt? w.clock

def transition (m : Machine) (act : Activation) (w : World) : Turn :=
  let fail := fun cause w => Turn.fail (.runtime ⟨act.function.name, cause⟩) w
  match act.next with
  | none => fail (.fellOff act.block.name) w
  | some target =>
    let w := { w with clock := w.clock + 1 }
    let steps := act.steps + 1
    match if steps % checkEvery = 0 then m.interrupt? w else none with
    | some i => fail (.interrupted i) w
    | none =>
      match m.block? act.function target with
      | none => fail (.fellOff act.block.name) w
      | some b =>
        .go { act with block := target, rest := b.instrs, next := none, steps := steps } w

def enact (m : Machine) (act : Activation) (w : World) : Effect → Turn
  | .value v slots globals =>
    .go ({ act with frame := { act.frame with slots := slots } }.receive v)
      { w with globals := globals }
  | .call callee args =>
    match callee.bind (m.module.function? ·.id) with
    | none => .fail (.runtime ⟨act.function.name, .uninitialized⟩) w
    | some f => .call f args
  | .jump target => .go ({ act with next := target }.receive .zero) w
  | .ret v => .done v
  | .fail cause => .fail (.runtime ⟨act.function.name, cause⟩) w
  | .missing => .fail .missingOperand w

def turn (m : Machine) (act : Activation) (w : World) : Turn :=
  match act.rest with
  | [] => m.transition act w
  | i :: _ => m.enact act w (i.effect act.frame w.globals)

mutual

def run (m : Machine) (fuel : Nat) (f : Function) (args : List Value) (depth : Nat) :
    Exec Value :=
  match fuel with
  | 0 => throw .outOfFuel
  | fuel + 1 =>
    if m.maxDepth < depth then failIn f.name .callDepth
    else if f.native then invoke m fuel f args depth
    else match Activation.start? f args depth with
      | none => failIn f.name (.fellOff "")
      | some act => exec m fuel act

def exec (m : Machine) (fuel : Nat) (act : Activation) : Exec Value :=
  match fuel with
  | 0 => throw .outOfFuel
  | fuel + 1 => fun w =>
    match m.turn act w with
    | .go act w => exec m fuel act w
    | .call callee args =>
      match invoke m fuel callee args (act.depth + 1) w with
      | .ok v w => exec m fuel (act.receive v) w
      | .error e w => .error e w
    | .done v => .ok v w
    | .fail f w => .error f w

def invoke (m : Machine) (fuel : Nat) (f : Function) (args : List Value) (depth : Nat) :
    Exec Value :=
  match fuel with
  | 0 => throw .outOfFuel
  | fuel + 1 =>
    if f.native then
      match m.native? f.name with
      | none => failIn f.name .unbound
      | some native => fun w =>
        (native args).perform m.context
          (fun r args => match m.module.function? r.id with
            | none => failIn r.name .unbound
            | some callee => invoke m fuel callee args (depth + 1))
          f.name (w.noteCall f.name args)
    else run m fuel f args depth

end

/-- The steps that a run may take: far more than one that ends takes in practice. -/
def ample : Nat := 1000000000000

def call (m : Machine) (f : Option FuncRef) (args : List Value) : Exec Value :=
  (Action.call f args .done).perform m.context
    (fun r args => match m.module.function? r.id with
      | none => failIn r.name .unbound
      | some callee => invoke m ample callee args 1)
    "?"

def checkEntry (f : Function) : Except CodeError Unit := do
  unless f.ref.params.isEmpty do throw { function := f.name, cause := .entryParams }
  unless f.ref.ret = .real ∨ f.ref.ret = .void do
    throw { function := f.name, cause := .entryReturn f.ref.ret }
  f.verify

def runEntry (m : Machine) (f : Function) : Exec Float := do
  modify fun w => { w.resizeGlobals m.module.globals.length with clock := 0 }
  return (← run m ample f [] 0).toNumber

end Machine

end RealScript
