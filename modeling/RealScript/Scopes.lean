import RealScript.Code.Builder

/-! # Scopes

Variables are bound to slots in frames. The bottom frame is that of the session; every other frame
belongs to a function, and code of a function sees its own frames and the bottom one only.
-/

namespace RealScript

abbrev Bindings := List (String × Slot)

structure ScopeFrame where
  owner : FuncRef
  vars : Bindings := []
  deriving DecidableEq, Repr

structure Scopes where
  globals : Bindings := []
  inner : List ScopeFrame := []
  deriving DecidableEq, Repr, Inhabited

namespace Scopes

def depth (s : Scopes) : Nat := s.inner.length + 1

def atGlobal (s : Scopes) : Bool := s.inner.isEmpty

def enter (s : Scopes) (owner : FuncRef) :
    Scopes := { s with inner := { owner := owner } :: s.inner }

def leave (s : Scopes) : Scopes := { s with inner := s.inner.drop 1 }

def push (s : Scopes) : Option FuncRef → Except Misuse Scopes
  | some owner => .ok (s.enter owner)
  | none => .error .pushNobody

def pop (s : Scopes) : Except Misuse Scopes :=
  if s.atGlobal then .error .popBottom else .ok s.leave

/-- Binds a name in the innermost frame, unless it is bound there already. -/
def declare? (s : Scopes) (name : String) (slot : Slot) : Option Scopes :=
  match s.inner with
  | [] =>
    if (s.globals.lookup name).isSome then none
    else some { s with globals := s.globals ++ [(name, slot)] }
  | f :: rest =>
    if (f.vars.lookup name).isSome then none
    else some { s with inner := { f with vars := f.vars ++ [(name, slot)] } :: rest }

def lookup (s : Scopes) (name : String) : Option Slot :=
  match s.inner with
  | [] => s.globals.lookup name
  | f :: _ =>
    ((s.inner.filter (·.owner.id = f.owner.id)).findSome? (·.vars.lookup name)).or
      (s.globals.lookup name)

def mark (s : Scopes) : Nat := s.globals.length

def rollback (s : Scopes) (n : Nat) : Scopes := { globals := s.globals.take n }

private def padded (name : String) : String := name.pushn ' ' (16 - name.length)

def listBindings (vars : Bindings) : String :=
  if vars.isEmpty then "  (empty)\n"
  else
    let sorted := vars.mergeSort fun a b => !decide (b.1 < a.1)
    String.join (sorted.map fun (name, slot) =>
      "  " ++ padded name ++ " " ++ slot.text ++ " " ++ slot.ty.name ++ "\n")

private def listFrame (f : ScopeFrame) (index : Nat) : String :=
  "Frame " ++ toString index ++ " (" ++ f.owner.text ++ "):\n" ++ listBindings f.vars

def listing (s : Scopes) : String :=
  "Globals:\n" ++ listBindings s.globals ++
    String.join ((s.inner.reverse.zipIdx 1).map fun (f, i) => listFrame f i)

end Scopes

end RealScript
