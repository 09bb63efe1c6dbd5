/-! # Operators -/

namespace RealScript

inductive Category where
  | assign | logic | arithmetic | compare | unary
  deriving DecidableEq, Repr, Inhabited

namespace Category

def all : List Category := [.assign, .logic, .arithmetic, .compare, .unary]

def name : Category → String
  | .assign => "assign"
  | .logic => "logic"
  | .arithmetic => "arith"
  | .compare => "compare"
  | .unary => "unary"

def nameOfIndex (n : Int) : String :=
  match n.toNat?.bind (all[·]?) with
  | some c => c.name
  | none => "?"

end Category

structure Operator where
  spelling : String := ""
  category : Category := .assign
  precedence : Nat := 0
  deriving DecidableEq, Repr, Inhabited

namespace Operator

def table : List Operator := [
  ⟨"=", .assign, 2⟩,
  ⟨"or", .logic, 5⟩, ⟨"xor", .logic, 5⟩, ⟨"and", .logic, 6⟩,
  ⟨"==", .compare, 9⟩, ⟨"!=", .compare, 9⟩,
  ⟨"<", .compare, 10⟩, ⟨">", .compare, 10⟩, ⟨"<=", .compare, 10⟩, ⟨">=", .compare, 10⟩,
  ⟨"+", .arithmetic, 20⟩, ⟨"-", .arithmetic, 20⟩,
  ⟨"*", .arithmetic, 40⟩, ⟨"/", .arithmetic, 40⟩,
  ⟨"not", .unary, 0⟩]

def find? (spelling : String) : Option Operator :=
  table.find? (·.spelling == spelling)

def isBinary (o : Operator) : Bool := o.category != .unary && o.spelling != ""

end Operator

end RealScript
