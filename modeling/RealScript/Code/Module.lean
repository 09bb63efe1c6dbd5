import RealScript.Code.Listing

/-! # Modules

A module holds the functions and the global slots of a session. A function keeps its number when it
is removed, so that code that still refers to it means the same function.
-/

namespace RealScript

structure Module where
  name : String
  globals : List Slot := []
  store : Array Function := #[]
  loose : List Block := []
  deriving Repr, Inhabited

namespace Module

/-- The functions that the module lists, in the order of their declaration. -/
def functions (m : Module) : List Function := m.store.toList.filter (·.listed)

def find? (m : Module) (name : String) : Option Function :=
  m.functions.find? (·.name == name)

def function? (m : Module) (id : Nat) : Option Function := m.store[id]?

def modify (m : Module) (id : Nat) (f : Function → Function) : Module :=
  { m with store := m.store.modify id f }

/-- Declares a function. A declaration may be repeated as long as there is no body. -/
def declare (m : Module) (name : String) (params : List Ty) (ret : Ty) :
    Except CodeError (Function × Module) :=
  match m.find? name with
  | some f =>
    if f.ref.params ≠ params ∨ f.ref.ret ≠ ret then
      .error { function := name, cause := .signature }
    else if f.hasBody || f.native then .error { function := name, cause := .redefinition }
    else .ok (f, m)
  | none =>
    let f : Function :=
      { ref := ⟨m.store.size, name, params, ret⟩
        paramNames := (List.range params.length).map fun i => "a" ++ toString i }
    .ok (f, { m with store := m.store.push f })

def declareNative (m : Module) (name : String) (params : List Ty) (ret : Ty) :
    Except CodeError (Function × Module) := do
  let (f, m) ← m.declare name params ret
  let f := { f with native := true }
  return (f, m.modify f.id fun _ => f)

def remove (m : Module) (name : String) : Module :=
  match m.find? name with
  | some f => m.modify f.id fun f => { f with listed := false }
  | none => m

/-- Gives the numbers of the last functions back if the module does not list them any more. -/
def trim (m : Module) : Module := { m with store := m.store.popWhile fun f => !f.listed }

def newGlobal (m : Module) (name : String) (ty : Ty) : Slot × Module :=
  let slot : Slot := ⟨name, ty, .module, m.globals.length⟩
  (slot, { m with globals := m.globals ++ [slot] })

def truncateGlobals (m : Module) (n : Nat) : Module := { m with globals := m.globals.take n }

def block? (m : Module) (r : BlockRef) : Option Block :=
  ((m.function? r.fn).bind (·.block? r)).or (m.loose.find? (·.ref == r))

def listing (m : Module) : String :=
  "; module " ++ m.name ++ "\n" ++
    String.join (m.globals.map fun g => g.text ++ " = global " ++ g.ty.name ++ "\n") ++
    String.join (m.functions.map fun f => "\n" ++ f.listing)

end Module

end RealScript
