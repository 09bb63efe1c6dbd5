import RealScript.Machine.World

/-! # Actions of native functions

A native function computes an action from its arguments. The action is carried out step by step, so
that a native function can call back into code.
-/

namespace RealScript

inductive Action where
  | done (v : Value)
  | fail (cause : RunCause)
  | raise (e : RuntimeError)
  | attempt (f : Option FuncRef) (args : List Value) (next : Except RuntimeError Value → Action)
  | proceed (next : Action)
  | enterPool (next : Action)
  | write (bytes : List UInt8) (next : Action)
  | read (next : InputWords → Action)
  | leave (rest : List UInt8) (next : Action)

def Action.call (f : Option FuncRef) (args : List Value) (next : Value → Action) : Action :=
  .attempt f args fun
    | .ok v => next v
    | .error e => .raise e

abbrev Native := List Value → Action

abbrev Exec := EStateM Fault World

def failIn {α : Type} (function : String) (cause : RunCause) : Exec α :=
  throw (.runtime ⟨function, cause⟩)

/-- Tries to call a function value: what a native function that calls it gets back. A fault that is
no error of the program ends the native function as well. -/
def callBack (call : FuncRef → List Value → Exec Value) (f : Option FuncRef) (args : List Value) :
    Exec (Except RuntimeError Value) :=
  match f with
  | none => return .error ⟨"?", .uninitialized⟩
  | some f => fun w =>
    if args.length ≠ f.params.length then
      .ok (.error ⟨f.name, .argumentCount f.params.length args.length⟩) w
    else
      match call f args w with
      | .ok v w => .ok (.ok v) w
      | .error (.runtime e) w => .ok (.error e) w
      | .error fault w => .error fault w

/-- Carries out the action of the native function of the given name. Calls back into code go to
`call`. -/
def Action.perform (ctx : Context) (call : FuncRef → List Value → Exec Value) (name : String) :
    Action → Exec Value
  | .done v => return v
  | .fail cause => failIn name cause
  | .raise e => throw (.runtime e)
  | .attempt f args next => fun w =>
    match callBack call f args w with
    | .ok r w => (next r).perform ctx call name w
    | .error fault w => .error fault w
  | .proceed next => fun w =>
    match ctx.interrupt? w.clock with
    | some i => .error (.runtime ⟨name, .interrupted i⟩) w
    | none => next.perform ctx call name w
  | .enterPool next => fun w =>
    if w.pool.closed then .error (.runtime ⟨name, .poolClosed⟩) w
    else next.perform ctx call name w
  | .write bytes next => fun w =>
    match w.write bytes with
    | (.ok (), w) => next.perform ctx call name w
    | (.error cause, w) => .error (.runtime ⟨name, cause⟩) w
  | .read next => fun w =>
    match w.inputWords with
    | (.ok words, w) => (next words).perform ctx call name w
    | (.error cause, w) => .error (.runtime ⟨name, cause⟩) w
  | .leave rest next => fun w => next.perform ctx call name (w.leaveInput rest)

end RealScript
