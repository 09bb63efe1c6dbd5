import RealScript.Machine.Fault
import RealScript.Machine.Value
import RealScript.Text.Words

/-! # The world of a run

What a run can change and see: global storage, its input, the events that it causes, the worker pool
and the clock.
-/

namespace RealScript

inductive Event where
  | out (bytes : List UInt8)
  | err (text : String)
  | log (line : String)
  | prompt (text : String)
  | history (item : String)
  deriving DecidableEq, Repr

inductive Answer where
  | line (text : String)
  | aborted
  | failed (text : String)
  deriving DecidableEq, Repr

inductive PromptFailure where
  | ended
  | aborted
  | failed (text : String)
  deriving DecidableEq, Repr

def PromptFailure.message : PromptFailure → String
  | .ended => "EOF"
  | .aborted => "prompt aborted"
  | .failed text => text

structure InputBytes where
  bytes : List UInt8 := []
  failure : Option String := none
  deriving DecidableEq, Repr, Inhabited

structure InputWords where
  words : Text.Words
  failure : Option String := none
  deriving DecidableEq, Repr

def InputBytes.words (input : InputBytes) : InputWords := ⟨Text.words input.bytes, input.failure⟩

def InputWords.cause? (w : InputWords) : Option RunCause :=
  if w.words.tooLong then some .wordTooLong else w.failure.map .other

inductive Source where
  | stream (input : InputBytes)
  | prompts
  deriving DecidableEq, Repr

structure Pool where
  size : Nat
  closed : Bool := false
  deriving DecidableEq, Repr

def Pool.ofWorkers (workers : Int) : Pool := { size := max 1 workers.toNat }

/-- When a run has to stop: at once, or when the clock gets to the deadline. -/
structure Context where
  cancelled : Bool := false
  deadline : Option Nat := none
  deriving DecidableEq, Repr

structure World where
  globals : Array Value := #[]
  source : Source := .stream {}
  answers : List Answer := []
  outFailure : Option String := none
  pool : Pool := { size := 1 }
  events : Array Event := #[]
  calls : Array (String × List Value) := #[]
  clock : Nat := 0
  deriving Repr

def Context.interrupt? (ctx : Context) (clock : Nat) : Option Interrupt :=
  if ctx.cancelled then some .cancelled
  else if ctx.deadline.any (· ≤ clock) then some .deadline
  else none

namespace World

def emit (w : World) (e : Event) : World := { w with events := w.events.push e }

def noteCall (w : World) (name : String) (args : List Value) : World :=
  { w with calls := w.calls.push (name, args) }

def ask (w : World) (prompt : String) : Except PromptFailure String × World :=
  let w := w.emit (.prompt prompt)
  match w.answers with
  | [] => (.error .ended, w)
  | .line text :: rest => (.ok text, { w with answers := rest })
  | .aborted :: rest => (.error .aborted, { w with answers := rest })
  | .failed text :: rest => (.error (.failed text), { w with answers := rest })

/-- The words of the input. A line that was asked for is used up by that. -/
def inputWords (w : World) : Except RunCause InputWords × World :=
  match w.source with
  | .stream input => (.ok input.words, w)
  | .prompts =>
    match w.ask "read] " with
    | (.ok line, w) => (.ok (InputBytes.words { bytes := line.toUTF8.toList }), w)
    | (.error e, w) => (.error (.other ("read: " ++ e.message)), w)

def leaveInput (w : World) (rest : List UInt8) : World :=
  match w.source with
  | .stream input => { w with source := .stream { input with bytes := rest } }
  | .prompts => w

def write (w : World) (bytes : List UInt8) : Except RunCause Unit × World :=
  match w.outFailure with
  | some text => (.error (.other text), w)
  | none => (.ok (), w.emit (.out bytes))

def resizeGlobals (w : World) (n : Nat) : World :=
  { w with globals :=
      if w.globals.size < n then w.globals ++ Array.replicate (n - w.globals.size) Value.zero
      else w.globals.extract 0 n }

def global? (w : World) (m : Module) (name : String) : Option Value :=
  (m.globals.reverse.find? (·.name == name)).map fun g => w.globals.getD g.index .zero

end World

end RealScript
