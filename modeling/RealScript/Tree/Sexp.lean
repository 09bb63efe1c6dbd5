import RealScript.Tree

/-! # Trees as nested lists

A compact form without positions.
-/

namespace RealScript.Node

def listed (names : List String) : String := "(" ++ " ".intercalate names ++ ")"

mutual

def sexp : Node → String
  | .number _ x => Decimal.general x
  | .ident _ name => name
  | .unary _ op x => "(" ++ op ++ " " ++ sexp x ++ ")"
  | .binary _ op l r => "(" ++ op ++ " " ++ sexp l ++ " " ++ sexp r ++ ")"
  | .call _ builtin callee args =>
    "(" ++ (if builtin then "do " else "call ") ++ callee ++ sexpAll args ++ ")"
  | .collection _ sequence elements =>
    "(" ++ (if sequence then "seq" else "coll") ++ sexpAll elements ++ ")"
  | .conditional _ c body none => "(if " ++ sexp c ++ " (then" ++ sexpAll body ++ "))"
  | .conditional _ c body (some otherwise) =>
    "(if " ++ sexp c ++ " (then" ++ sexpAll body ++ ") (else" ++ sexpAll otherwise ++ "))"
  | .whileLoop _ c body => "(while " ++ sexp c ++ sexpAll body ++ ")"
  | .forLoop _ var start stop none body =>
    "(for " ++ var ++ " " ++ sexp start ++ " " ++ sexp stop ++ " _" ++ sexpAll body ++ ")"
  | .forLoop _ var start stop (some step) body =>
    "(for " ++ var ++ " " ++ sexp start ++ " " ++ sexp stop ++ " " ++ sexp step ++
      sexpAll body ++ ")"
  | .funcLit _ params body => "(func " ++ listed params ++ sexpAll body ++ ")"
  | .funcDef _ name params body =>
    "(def " ++ name ++ " " ++ listed params ++ sexpAll body ++ ")"
  | .hostDecl _ name params => "(extern " ++ name ++ " " ++ listed params ++ ")"
  | .ret _ x => "(return " ++ sexp x ++ ")"

def sexpAll : List Node → String
  | [] => ""
  | n :: ns => " " ++ sexp n ++ sexpAll ns

end

end RealScript.Node

namespace RealScript.Program

def sexp (p : Program) : String := "(program" ++ Node.sexpAll p ++ ")"

end RealScript.Program
