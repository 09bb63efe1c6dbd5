/-! # Types of values -/

namespace RealScript

inductive Ty where
  | void | real | bool | collection
  | func (arity : Nat)
  deriving DecidableEq, Repr, Inhabited

namespace Ty

def name : Ty → String
  | .void => "void"
  | .real => "real"
  | .bool => "bool"
  | .collection => "collection"
  | .func arity => "func/" ++ toString arity

/-- The name of the kind of type with the given number; only that of functions shows the arity. -/
def nameOfIndex (n arity : Int) : String :=
  match n with
  | 0 => name .void
  | 1 => name .real
  | 2 => name .bool
  | 3 => name .collection
  | 4 => "func/" ++ toString arity
  | n => "Type(" ++ toString n ++ ")"

end Ty

end RealScript
