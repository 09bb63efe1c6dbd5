import RealScript.Builtin
import RealScript.Code.Optimize
import RealScript.Files
import RealScript.Lowering
import RealScript.Tree.Parser
import RealScript.Tree.Printer
import RealScript.Tree.Sexp

/-! # A program stage by stage

Shows a program as text, tokens, tree and code.
-/

namespace RealScript

namespace Stages

structure Report where
  out : String
  failure : Option String := none
  deriving Repr

def sample : String :=
  "sq = func(x) \x7b return x * x \x7d\n" ++
  "xs = [1, 2, 3, 4]\n" ++
  "total = do(fold, func(a, b) \x7b return a + b \x7d, do(map, sq, xs))\n" ++
  "if total > 10\n  do(write, |total|)\ndone\n"

private def item (text : String) : String := "  " ++ text ++ "\n"

def tokens (ts : List Token) : String :=
  "Tokens (" ++ toString ts.length ++ ")\n" ++ String.join (ts.map fun t => item t.text) ++ "\n"

def tree (p : Program) : String :=
  "AST\n" ++ String.join (p.map fun n => item n.sexp) ++ "\nPrinted\n" ++ p.render ++ "\n"

def stats (s : Stats) : String :=
  "; folded=" ++ toString s.folded ++ " branches=" ++ toString s.branches ++ " removed=" ++
    toString s.removed ++ " merged=" ++ toString s.merged ++ " dead=" ++ toString s.dead ++ "\n"

def optimized (f : Function) : String :=
  let (s, f) := f.optimize
  f.listing ++ stats s

def code (l : Lowering) (u : CodeUnit) : String :=
  let fs := u.functions.filterMap fun r => l.module.function? r.id
  l.scopes.listing ++ "\nIR\n" ++ String.join (fs.map Function.listing) ++ "\nOptimized IR\n" ++
    String.join (fs.map optimized)

def lowering : Lowering := .ofModule (Builtin.moduleNamed "stages") Host.signatures

def report (src : String) : Report :=
  let out := "Source:\n" ++ src ++ "\n"
  match scan (.ofString src) with
  | .error d => ⟨out, some ("lex error: " ++ d.message)⟩
  | .ok ts =>
    let out := out ++ tokens ts
    match Program.parse src with
    | .error d => ⟨out, some ("parse error: " ++ d.message)⟩
    | .ok p =>
      let out := out ++ tree p
      match lowering.lower p with
      | (.error (.diagnostic d), _) => ⟨out, some ("lowering error: " ++ d.message)⟩
      | (.error (.misuse m), _) => ⟨out, some ("lowering error: " ++ m.message)⟩
      | (.ok u, l) => ⟨out ++ code l u, none⟩

def run (files : Files) : List String → Report
  | [] => report sample
  | path :: _ =>
    match files.read path with
    | .ok src => report src
    | .error e => ⟨"", some ("read error: " ++ e.readMessage path)⟩

end Stages

end RealScript
