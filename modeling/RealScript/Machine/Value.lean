import RealScript.Code.Module

/-! # Values at run time -/

namespace RealScript

/-- A number stands for reals and truth values. A function value may be missing. -/
inductive Value where
  | number (x : Float)
  | collection (xs : List Float)
  | function (f : Option FuncRef)
  deriving Repr

namespace Value

def zero : Value := .number 0

instance : Inhabited Value := ⟨zero⟩

def toNumber : Value → Float
  | .number x => x
  | _ => 0

def toCollection : Value → List Float
  | .collection xs => xs
  | _ => []

def toFunction : Value → Option FuncRef
  | .function f => f
  | _ => none

end Value

end RealScript
