/-! # Source positions -/

namespace RealScript

/-- A line and a column. Those of source text count from one, and columns count characters; a tree
that was not read from text may carry any others. -/
structure Position where
  line : Int := 1
  col : Int := 1
  deriving DecidableEq, Repr, Inhabited

namespace Position

def text (p : Position) : String := toString p.line ++ ":" ++ toString p.col

def step (p : Position) (c : Char) : Position :=
  if c = '\n' then ⟨p.line + 1, 1⟩ else ⟨p.line, p.col + 1⟩

def after (p : Position) (cs : List Char) : Position := cs.foldl step p

end Position

end RealScript
