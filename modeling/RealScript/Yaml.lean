/-! # YAML documents

A document is a tree of scalars, sequences and mappings, some of which stand for others.
-/

namespace RealScript

inductive Yaml where
  | scalar (tag : Option String) (quoted : Bool) (text : String)
  | sequence (items : List Yaml)
  | mapping (pairs : List (Yaml × Yaml))
  | aliased (name : String) (target : Option Yaml)
  deriving Inhabited

namespace Yaml

def empty : Yaml := .scalar none false ""

inductive Kind where
  | scalar | sequence | mapping | aliased
  deriving DecidableEq, Repr

def label : Yaml → Kind × String
  | .scalar _ _ text => (.scalar, text)
  | .sequence _ => (.sequence, "")
  | .mapping _ => (.mapping, "")
  | .aliased name _ => (.aliased, name)

end Yaml

end RealScript
