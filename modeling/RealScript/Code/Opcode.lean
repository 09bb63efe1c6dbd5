import RealScript.Code.Operand

/-! # Operations of instructions -/

namespace RealScript

inductive Predicate where
  | eq | ne | lt | gt | le | ge
  deriving DecidableEq, Repr, Inhabited

namespace Predicate

def all : List Predicate := [.eq, .ne, .lt, .gt, .le, .ge]

def name : Predicate → String
  | .eq => "eq"
  | .ne => "ne"
  | .lt => "lt"
  | .gt => "gt"
  | .le => "le"
  | .ge => "ge"

def eval : Predicate → Float → Float → Bool
  | .eq, a, b => a == b
  | .ne, a, b => a != b
  | .lt, a, b => a < b
  | .gt, a, b => a > b
  | .le, a, b => a ≤ b
  | .ge, a, b => a ≥ b

end Predicate

/-- What an instruction does. An unknown operation is kept by its number, so that it can be listed
and refused. -/
inductive Opcode where
  | constColl | makeColl | load | store | add | sub | mul | div | cmp | and | or | xor | not
  | toBool | toReal | call | callIndirect | br | condBr | ret
  | unknown (n : Nat)
  deriving DecidableEq, Repr, Inhabited

namespace Opcode

def known : List Opcode :=
  [.constColl, .makeColl, .load, .store, .add, .sub, .mul, .div, .cmp, .and, .or, .xor, .not,
    .toBool, .toReal, .call, .callIndirect, .br, .condBr, .ret]

def ofIndex (n : Nat) : Opcode := known[n]?.getD (.unknown n)

def name : Opcode → String
  | .constColl => "constcoll"
  | .makeColl => "makecoll"
  | .load => "load"
  | .store => "store"
  | .add => "fadd"
  | .sub => "fsub"
  | .mul => "fmul"
  | .div => "fdiv"
  | .cmp => "fcmp"
  | .and => "and"
  | .or => "or"
  | .xor => "xor"
  | .not => "not"
  | .toBool => "tobool"
  | .toReal => "toreal"
  | .call => "call"
  | .callIndirect => "call.indirect"
  | .br => "br"
  | .condBr => "condbr"
  | .ret => "ret"
  | .unknown n => "Op(" ++ toString n ++ ")"

def find? (name : String) : Option Opcode := known.find? (·.name == name)

def isTerminator : Opcode → Bool
  | .br | .condBr | .ret => true
  | _ => false

def isPure : Opcode → Bool
  | .store | .call | .callIndirect | .br | .condBr | .ret => false
  | _ => true

def isArithmetic : Opcode → Bool
  | .add | .sub | .mul | .div => true
  | _ => false

def isLogical : Opcode → Bool
  | .and | .or | .xor => true
  | _ => false

def isNumeric : Opcode → Bool
  | .add | .sub | .mul | .div | .cmp | .and | .or | .xor | .not | .toBool | .toReal => true
  | _ => false

/-- What a numeric operation computes: a real, or a truth value. The second operand of an operation
that takes one is ignored. -/
def compute (p : Predicate) : Opcode → Float → Float → Float ⊕ Bool
  | .add, x, y => .inl (x + y)
  | .sub, x, y => .inl (x - y)
  | .mul, x, y => .inl (x * y)
  | .div, x, y => .inl (x / y)
  | .cmp, x, y => .inr (p.eval x y)
  | .and, x, y => .inr (x != 0 && y != 0)
  | .or, x, y => .inr (x != 0 || y != 0)
  | .xor, x, y => .inr ((x != 0) != (y != 0))
  | .not, x, _ => .inr (x == 0)
  | .toBool, x, _ => .inr (x != 0)
  | _, x, _ => .inl x

end Opcode

end RealScript
