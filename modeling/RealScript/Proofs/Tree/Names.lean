import Mathlib
import RealScript.Tree

/-! # The names in a tree -/

namespace RealScript.Node

variable (P : String → Prop)

mutual

def Named : Node → Prop
  | .number _ _ => True
  | .ident _ name => P name
  | .unary _ _ x => x.Named
  | .binary _ _ l r => l.Named ∧ r.Named
  | .call _ _ name args => P name ∧ NamedAll args
  | .collection _ _ elements => NamedAll elements
  | .conditional _ c body none => c.Named ∧ NamedAll body
  | .conditional _ c body (some otherwise) => c.Named ∧ NamedAll body ∧ NamedAll otherwise
  | .whileLoop _ c body => c.Named ∧ NamedAll body
  | .forLoop _ var start stop none body => P var ∧ start.Named ∧ stop.Named ∧ NamedAll body
  | .forLoop _ var start stop (some step) body =>
    P var ∧ start.Named ∧ stop.Named ∧ step.Named ∧ NamedAll body
  | .funcLit _ params body => (∀ x ∈ params, P x) ∧ NamedAll body
  | .funcDef _ name params body => P name ∧ (∀ x ∈ params, P x) ∧ NamedAll body
  | .hostDecl _ name params => P name ∧ ∀ x ∈ params, P x
  | .ret _ x => x.Named

def NamedAll : List Node → Prop
  | [] => True
  | n :: ns => n.Named ∧ NamedAll ns

end

end RealScript.Node
