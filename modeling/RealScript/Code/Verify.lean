import RealScript.Code.Function

/-! # Verifying code

A function is well formed when every block ends in its only terminator, branches stay within the
function, operands are defined in it and have the types that their instruction asks for, and calls
agree with the signature of their callee.
-/

namespace RealScript.Function

def demand (ok : Bool) (cause : CodeCause) : Except CodeCause Unit :=
  if ok then .ok () else .error cause

def verifyOperand (f : Function) (op : Opcode) (want : Ty) (x : Operand) :
    Except CodeCause Unit := do
  match x with
  | .result r => demand (f.defines r) (.undefinedResult op r)
  | .param fn _ _ _ => demand (fn = f.id) (.foreignParam op)
  | .hole => throw (.hole op)
  | _ => pure ()
  demand (x.ty = want) (.operandType op want x.ty)

def verifyOperands (f : Function) (o : Operation) (want : Ty) (n : Nat) :
    Except CodeCause Unit := do
  demand (o.args.length = n) (.operandCount o.op n o.args.length)
  o.args.forM (f.verifyOperand o.op want)

def verifyTarget (f : Function) (t : Option BlockRef) : Except CodeCause Unit :=
  demand (t.any fun r => f.blocks.any (·.ref == r)) .outsideTarget

def verifyOperation (f : Function) (o : Operation) : Except CodeCause Unit :=
  match o.op with
  | .constColl => .ok ()
  | .makeColl => f.verifyOperands o .real o.args.length
  | .load | .store =>
    match o.slot with
    | none => .error (.noSlot o.op)
    | some s => do
      demand (s.isGlobal || s.home = .activation f.id) (.foreignSlot o.op)
      if o.op = .store then f.verifyOperands o s.ty 1
  | .add | .sub | .mul | .div | .cmp => f.verifyOperands o .real 2
  | .and | .or | .xor => f.verifyOperands o .bool 2
  | .not | .toReal => f.verifyOperands o .bool 1
  | .toBool => f.verifyOperands o .real 1
  | .call =>
    match o.callee with
    | none => .error .noCallee
    | some c => do
      demand (o.args.length = c.params.length)
        (.callCount c.name c.params.length o.args.length)
      (o.args.zip c.params).forM fun (x, ty) => f.verifyOperand o.op ty x
  | .callIndirect =>
    match o.args with
    | [] => .error .noIndirectCallee
    | callee :: args => do
      f.verifyOperand o.op (.func args.length) callee
      args.forM (f.verifyOperand o.op .real)
  | .br =>
    match o.targets with
    | [t] => f.verifyTarget t
    | _ => .error .oneTarget
  | .condBr =>
    match o.targets with
    | [yes, no] => do
      f.verifyOperands o .bool 1
      f.verifyTarget yes
      f.verifyTarget no
    | _ => .error .twoTargets
  | .ret =>
    if f.ref.ret = .void then demand o.args.isEmpty .voidReturn
    else f.verifyOperands o f.ref.ret 1
  | .unknown _ => .error (.unknownOpcode o.op)

def verifyInstrs (f : Function) (b : BlockRef) : List Instr → Except CodeCause Unit
  | [] => .ok ()
  | i :: is => do
    if is.isEmpty then demand i.isTerminator .openBlock
    else demand (!i.isTerminator) (.earlyEnd i.op)
    demand (i.block == b) (.foreignLink i.op)
    f.verifyOperation i.toOperation
    f.verifyInstrs b is

def verifyBlock (f : Function) (b : Block) : Except CodeCause Unit := do
  demand (b.ref.fn = f.id) .foreignBlock
  demand (!b.instrs.isEmpty) .emptyBlock
  f.verifyInstrs b.ref b.instrs

def verify (f : Function) : Except CodeError Unit :=
  if f.native then .ok ()
  else if !f.hasBody then .error { function := f.name, cause := .noBody }
  else f.blocks.forM fun b =>
    (f.verifyBlock b).mapError fun cause =>
      { function := f.name, block := b.ref.name, cause := cause }

end RealScript.Function
