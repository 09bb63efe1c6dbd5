import RealScript.Tree

/-! # Trees as source text

Binary operations are written with parentheses around them, one statement on a line, and bodies are
indented by two blanks.
-/

namespace RealScript.Node

def indentation (depth : Nat) : String := "".pushn ' ' (2 * depth)

def commas (parts : List String) : String := ", ".intercalate parts

def openBrace : String := String.ofList [Char.ofNat 0x7B]

def closeBrace : String := String.ofList [Char.ofNat 0x7D]

/-- Statements one below the other. A semicolon keeps a statement from running on into one that
starts with a parenthesis. -/
def lines (depth : Nat) : List String → String
  | [] => ""
  | [s] => indentation depth ++ s ++ "\n"
  | s :: t :: rest =>
    indentation depth ++ s ++ (if t.startsWith "(" then ";" else "") ++ "\n" ++
      lines depth (t :: rest)

mutual

/-- The text of a tree; only a statement may be an assignment without parentheses. -/
def render (statement : Bool) (depth : Nat) : Node → String
  | .number _ x => Decimal.positional x
  | .ident _ name => name
  | .unary _ op x => op ++ " " ++ render false depth x
  | .binary _ op l r =>
    let body := render false depth l ++ " " ++ op ++ " " ++ render false depth r
    if statement && op == "=" then body else "(" ++ body ++ ")"
  | .call _ builtin callee args =>
    let args := renderAll false depth args
    if builtin then "do(" ++ commas (callee :: args) ++ ")" else callee ++ "(" ++ commas args ++ ")"
  | .collection _ sequence elements =>
    let elements := commas (renderElements depth elements)
    if sequence then "|" ++ elements ++ "|" else "[" ++ elements ++ "]"
  | .conditional _ c body none =>
    "if " ++ render false depth c ++ "\n" ++ lines (depth + 1) (renderAll true (depth + 1) body) ++
      indentation depth ++ "done"
  | .conditional _ c body (some otherwise) =>
    "if " ++ render false depth c ++ "\n" ++ lines (depth + 1) (renderAll true (depth + 1) body) ++
      indentation depth ++ "else\n" ++ lines (depth + 1) (renderAll true (depth + 1) otherwise) ++
      indentation depth ++ "done"
  | .whileLoop _ c body =>
    "while " ++ render false depth c ++ "\n" ++
      lines (depth + 1) (renderAll true (depth + 1) body) ++ indentation depth ++ "done"
  | .forLoop _ var start stop none body =>
    "for " ++ var ++ " = " ++ render false depth start ++ ", " ++ render false depth stop ++ "\n" ++
      lines (depth + 1) (renderAll true (depth + 1) body) ++ indentation depth ++ "done"
  | .forLoop _ var start stop (some step) body =>
    "for " ++ var ++ " = " ++ render false depth start ++ ", " ++ render false depth stop ++ ", " ++
      render false depth step ++ "\n" ++ lines (depth + 1) (renderAll true (depth + 1) body) ++
      indentation depth ++ "done"
  | .funcLit _ params body =>
    "func(" ++ commas params ++ ") " ++ openBrace ++ "\n" ++
      lines (depth + 1) (renderAll true (depth + 1) body) ++ indentation depth ++ closeBrace
  | .funcDef _ name params body =>
    "func " ++ name ++ "(" ++ commas params ++ ") " ++ openBrace ++ "\n" ++
      lines (depth + 1) (renderAll true (depth + 1) body) ++ indentation depth ++ closeBrace
  | .hostDecl _ name params => "extern " ++ name ++ "(" ++ commas params ++ ")"
  | .ret _ x => "return " ++ render false depth x

def renderAll (statement : Bool) (depth : Nat) : List Node → List String
  | [] => []
  | n :: ns => render statement depth n :: renderAll statement depth ns

def renderElements (depth : Nat) : List Node → List String
  | [] => []
  | n :: ns =>
    let text := render false depth n
    (if n.isUnary then "(" ++ text ++ ")" else text) :: renderElements depth ns

end

end RealScript.Node

namespace RealScript.Program

def render (p : Program) : String := Node.lines 0 (Node.renderAll true 0 p)

end RealScript.Program
