import RealScript.Code.Opcode

/-! # Errors of code

What can be wrong with a declaration or with the code of a function.
-/

namespace RealScript

inductive CodeCause where
  | signature
  | redefinition
  | noBody
  | entryParams
  | entryReturn (ret : Ty)
  | foreignBlock
  | emptyBlock
  | openBlock
  | earlyEnd (op : Opcode)
  | foreignLink (op : Opcode)
  | undefinedResult (op : Opcode) (r : ResultRef)
  | foreignParam (op : Opcode)
  | hole (op : Opcode)
  | operandType (op : Opcode) (want got : Ty)
  | operandCount (op : Opcode) (want got : Nat)
  | noSlot (op : Opcode)
  | foreignSlot (op : Opcode)
  | noCallee
  | callCount (name : String) (want got : Nat)
  | noIndirectCallee
  | oneTarget
  | twoTargets
  | outsideTarget
  | voidReturn
  | unknownOpcode (op : Opcode)
  deriving DecidableEq, Repr

def CodeCause.message : CodeCause → String
  | .signature => "redefinition with mismatched signature"
  | .redefinition => "redefinition of function"
  | .noBody => "function has no body"
  | .entryParams => "entry point takes parameters"
  | .entryReturn ret => "entry point returns " ++ ret.name
  | .foreignBlock => "block belongs to another function"
  | .emptyBlock => "empty block"
  | .openBlock => "block does not end in a terminator"
  | .earlyEnd op => op.name ++ " before end of block"
  | .foreignLink op => op.name ++ " is linked to another block"
  | .undefinedResult op r =>
    op.name ++ " uses " ++ r.text ++ " which is not defined in this function"
  | .foreignParam op => op.name ++ " uses a parameter of another function"
  | .hole op => op.name ++ " has a nil operand"
  | .operandType op want got => op.name ++ " expects " ++ want.name ++ " operand, got " ++ got.name
  | .operandCount op want got =>
    op.name ++ " expects " ++ toString want ++ " operands, got " ++ toString got
  | .noSlot op => op.name ++ " without a slot"
  | .foreignSlot op => op.name ++ " of a slot owned by another function"
  | .noCallee => "call without a callee"
  | .callCount name want got =>
    "call to @" ++ name ++ " with " ++ toString got ++ " arguments, want " ++ toString want
  | .noIndirectCallee => "indirect call without a callee"
  | .oneTarget => "br needs one target"
  | .twoTargets => "condbr needs two targets"
  | .outsideTarget => "branch to a block outside the function"
  | .voidReturn => "void function returns a value"
  | .unknownOpcode op => "unknown opcode " ++ op.name

structure CodeError where
  function : String
  block : String := ""
  cause : CodeCause
  deriving DecidableEq, Repr

namespace CodeError

def located (function block message : String) : String :=
  if block != "" then "@" ++ function ++ "/" ++ block ++ ": " ++ message
  else if function != "" then "@" ++ function ++ ": " ++ message
  else message

def message (e : CodeError) : String := located e.function e.block e.cause.message

end CodeError

end RealScript
