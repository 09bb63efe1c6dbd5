import RealScript.Decimal.Layout
import RealScript.Position

/-! # Syntax trees

One type covers statements and expressions, because a tree that is not the result of parsing may
hold either in any place.
-/

namespace RealScript

inductive Node where
  | number (pos : Position) (value : Float)
  | ident (pos : Position) (name : String)
  | unary (pos : Position) (op : String) (operand : Node)
  | binary (pos : Position) (op : String) (lhs rhs : Node)
  | call (pos : Position) (builtin : Bool) (callee : String) (args : List Node)
  | collection (pos : Position) (sequence : Bool) (elements : List Node)
  | conditional (pos : Position) (cond : Node) (body : List Node) (otherwise : Option (List Node))
  | whileLoop (pos : Position) (cond : Node) (body : List Node)
  | forLoop (pos : Position) (var : String) (start stop : Node) (step : Option Node)
      (body : List Node)
  | funcLit (pos : Position) (params : List String) (body : List Node)
  | funcDef (pos : Position) (name : String) (params : List String) (body : List Node)
  | hostDecl (pos : Position) (name : String) (params : List String)
  | ret (pos : Position) (value : Node)
  deriving Repr, Inhabited

abbrev Program := List Node

namespace Node

def pos : Node → Position
  | .number p _ | .ident p _ | .unary p _ _ | .binary p _ _ _ | .call p _ _ _
  | .collection p _ _ | .conditional p _ _ _ | .whileLoop p _ _ | .forLoop p _ _ _ _ _
  | .funcLit p _ _ | .funcDef p _ _ _ | .hostDecl p _ _ | .ret p _ => p

def isUnary : Node → Bool
  | .unary .. => true
  | _ => false

def isCollection : Node → Bool
  | .collection .. => true
  | _ => false

mutual

def preorder : Node → List Node
  | n@(.number ..) | n@(.ident ..) | n@(.hostDecl ..) => [n]
  | n@(.unary _ _ x) => n :: preorder x
  | n@(.binary _ _ l r) => n :: (preorder l ++ preorder r)
  | n@(.call _ _ _ args) => n :: preorderAll args
  | n@(.collection _ _ elements) => n :: preorderAll elements
  | n@(.conditional _ c body none) => n :: (preorder c ++ preorderAll body)
  | n@(.conditional _ c body (some otherwise)) =>
    n :: (preorder c ++ preorderAll body ++ preorderAll otherwise)
  | n@(.whileLoop _ c body) => n :: (preorder c ++ preorderAll body)
  | n@(.forLoop _ _ start stop none body) =>
    n :: (preorder start ++ preorder stop ++ preorderAll body)
  | n@(.forLoop _ _ start stop (some step) body) =>
    n :: (preorder start ++ preorder stop ++ preorder step ++ preorderAll body)
  | n@(.funcLit _ _ body) => n :: preorderAll body
  | n@(.funcDef _ _ _ body) => n :: preorderAll body
  | n@(.ret _ x) => n :: preorder x

def preorderAll : List Node → List Node
  | [] => []
  | n :: ns => preorder n ++ preorderAll ns

end

end Node

end RealScript
