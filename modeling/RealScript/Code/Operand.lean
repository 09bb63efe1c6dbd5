import RealScript.Code.Ty
import RealScript.Decimal.Layout

/-! # Operands

Code refers to functions, blocks, results and slots by what identifies them, together with what
never changes about them: name and type.
-/

namespace RealScript

/-- A function as code refers to it. The number tells it from others of the same name. -/
structure FuncRef where
  id : Nat
  name : String
  params : List Ty
  ret : Ty
  deriving DecidableEq, Repr, Inhabited

namespace FuncRef

def ty (f : FuncRef) : Ty := .func f.params.length

def text (f : FuncRef) : String := "@" ++ f.name

end FuncRef

structure BlockRef where
  fn : Nat
  index : Nat
  name : String
  deriving DecidableEq, Repr, Inhabited

/-- The result of an instruction: the function it was emitted into, its number there, and the
register that receives the result, if it has one. -/
structure ResultRef where
  fn : Nat
  index : Nat
  register : Option Nat
  ty : Ty
  deriving DecidableEq, Repr, Inhabited

def ResultRef.text (r : ResultRef) : String :=
  match r.register with
  | some n => "%" ++ toString n
  | none => "%-1"

/-- Where a slot lives: with the module, or in each activation of a function. -/
inductive Home where
  | module
  | activation (fn : Nat)
  deriving DecidableEq, Repr, Inhabited

structure Slot where
  name : String
  ty : Ty
  home : Home
  index : Nat
  deriving DecidableEq, Repr, Inhabited

namespace Slot

def isGlobal (s : Slot) : Bool := s.home = .module

def text (s : Slot) : String :=
  match s.home with
  | .module => "@" ++ s.name
  | .activation _ => "%" ++ s.name ++ "." ++ toString s.index

end Slot

inductive Operand where
  | real (x : Float)
  | truth (b : Bool)
  | param (fn index : Nat) (name : String) (ty : Ty)
  | func (f : FuncRef)
  | result (r : ResultRef)
  | hole
  deriving Repr, Inhabited

def truthNumber (b : Bool) : Float := if b then 1 else 0

namespace Operand

def ty : Operand → Ty
  | .real _ => .real
  | .truth _ => .bool
  | .param _ _ _ ty => ty
  | .func f => f.ty
  | .result r => r.ty
  | .hole => .void

def text : Operand → String
  | .real x => Decimal.general x
  | .truth b => if b then "true" else "false"
  | .param _ _ name _ => "%" ++ name
  | .func f => f.text
  | .result r => r.text
  | .hole => "nil"

def number? : Operand → Option Float
  | .real x => some x
  | .truth b => some (truthNumber b)
  | _ => none

def result? : Operand → Option ResultRef
  | .result r => some r
  | _ => none

end Operand

end RealScript
