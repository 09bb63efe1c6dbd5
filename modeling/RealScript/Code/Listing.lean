import RealScript.Code.Function

/-! # Listings

The text of a function:

    define real @func.0(real %x) {
      slot %x.0 real
    entry:
      store %x.0, %x
      %0 = load %x.0
      ret %0
    }
-/

namespace RealScript

private def commaList (parts : List String) : String := ", ".intercalate parts

private def operandTexts (args : List Operand) : String := commaList (args.map Operand.text)

private def targetName (t : Option BlockRef) : String :=
  match t with
  | some r => r.name
  | none => "nil"

namespace Operation

def listing (o : Operation) : String :=
  let slot := (o.slot.map Slot.text).getD "nil"
  let target := fun n => targetName ((o.targets[n]?).getD none)
  let first := ((o.args[0]?).map Operand.text).getD "nil"
  match o.op with
  | .constColl => "constcoll [" ++ commaList (o.data.map Decimal.general) ++ "]"
  | .load => "load " ++ slot
  | .store => "store " ++ slot ++ ", " ++ operandTexts o.args
  | .cmp => "fcmp " ++ o.pred.name ++ " " ++ operandTexts o.args
  | .call =>
    "call " ++ (o.callee.map FuncRef.text).getD "nil" ++ "(" ++ operandTexts o.args ++ ")"
  | .callIndirect => "call.indirect " ++ first ++ "(" ++ operandTexts (o.args.drop 1) ++ ")"
  | .br => "br " ++ target 0
  | .condBr => "condbr " ++ first ++ ", " ++ target 0 ++ ", " ++ target 1
  | op => if o.args.isEmpty then op.name else op.name ++ " " ++ operandTexts o.args

end Operation

def Instr.listing (i : Instr) : String :=
  match i.ref.register with
  | some _ => i.ref.text ++ " = " ++ i.toOperation.listing
  | none => i.toOperation.listing

def Block.listing (b : Block) : String :=
  b.ref.name ++ ":\n" ++ String.join (b.instrs.map fun i => "  " ++ i.listing ++ "\n")

namespace Function

private def signature (f : Function) : String :=
  let params := (f.ref.params.zip f.paramNames).map fun (ty, name) => ty.name ++ " %" ++ name
  f.ref.ret.name ++ " @" ++ f.name ++ "(" ++ commaList params ++ ")"

def listing (f : Function) : String :=
  if f.native then "declare " ++ f.signature ++ "\n"
  else
    "define " ++ f.signature ++ " \x7b\n" ++
      String.join (f.slots.map fun s => "  slot " ++ s.text ++ " " ++ s.ty.name ++ "\n") ++
      String.join (f.blocks.map Block.listing) ++ "\x7d\n"

end Function

end RealScript
