import RealScript.Builtin
import RealScript.Code.Optimize
import RealScript.Files
import RealScript.Log
import RealScript.Lowering
import RealScript.Machine.Exec
import RealScript.Tree.Parser

/-! # Sessions

A session runs programs one after the other. Each one is parsed, lowered, optimised, listed if that
is asked for, and run. The globals and functions of earlier programs stay.
-/

namespace RealScript

inductive SessionError where
  | diagnostic (d : Diagnostic)
  | misuse (m : Misuse)
  | code (e : CodeError)
  | fault (f : Fault)
  | other (text : String)
  deriving Repr

def SessionError.message : SessionError → String
  | .diagnostic d => d.message
  | .misuse m => m.message
  | .code e => e.message
  | .fault f => f.message
  | .other text => text

structure Session where
  settings : Settings
  sink : LogSink
  color : Bool
  lowering : Lowering
  world : World
  deriving Repr

namespace Session

def module (s : Session) : Module := s.lowering.module

def emit (s : Session) (e : Event) : Session := { s with world := s.world.emit e }

def log (s : Session) (r : LogRecord) : Session :=
  match s.sink with
  | .nowhere => s
  | .json => s.emit (.log r.json)
  | .console least color =>
    if least.rank ≤ r.level.rank then s.emit (.err (r.console color)) else s

def start (settings : Settings) (sink : LogSink) (color : Bool) (world : World) :
    Except SettingsError Session := do
  settings.validate
  let pool := Pool.ofWorkers settings.workers
  let session : Session :=
    { settings := settings, sink := sink, color := color, world := { world with pool := pool }
      lowering := .ofModule (Builtin.moduleNamed "do") Host.signatures }
  return session.log
    { level := .debug, message := "worker pool started", fields := [("workers", .count pool.size)] }

def consoleSink (settings : Settings) (color : Bool) : LogSink :=
  .console ((LogLevel.find? settings.logLevel).getD .info) color

def close (s : Session) : Session :=
  { s with world := { s.world with pool := { s.world.pool with closed := true } } }

def report (s : Session) (name : String) (e : SessionError) : Session :=
  let tag := LogRecord.colored s.color "31;1" "error:"
  let line := match e with
    | .diagnostic d =>
      (if name = "" then d.pos.text else name ++ ":" ++ d.pos.text) ++ ": " ++ tag ++ " " ++
        d.cause.message
    | e => if name = "" then tag ++ " " ++ e.message else name ++ ": " ++ tag ++ " " ++ e.message
  s.emit (.err (line ++ "\n"))

def setModule (s : Session) (m : Module) : Session :=
  { s with lowering := s.lowering.setModule m }

def optimize (s : Session) (f : FuncRef) : Session :=
  match s.module.function? f.id with
  | none => s
  | some fn =>
    let (stats, fn) := fn.optimize
    (s.setModule (s.module.modify f.id fun _ => fn)).log
      { level := .debug, message := "optimized"
        fields := [("function", .text f.name), ("blocks", .count fn.blocks.length),
          ("folded", .count stats.folded), ("merged", .count stats.merged)] }

def dump (s : Session) (f : FuncRef) : Session :=
  match s.module.function? f.id with
  | none => s
  | some fn => s.emit (.err fn.listing)

/-- The machine of a run. A transition of blocks counts for a microsecond of its time. -/
def machine (s : Session) (cancelled : Bool) : Machine :=
  { module := s.module, natives := Builtin.natives, maxDepth := s.settings.maxCallDepth
    context :=
      { cancelled := cancelled
        deadline := if 0 < s.settings.timeout.ns then some (s.settings.timeout.ns / 1000).toNat
          else none } }

def runUnit (s : Session) (cancelled : Bool) (u : CodeUnit) : Except SessionError Float × Session :=
  match s.module.function? u.entry.id with
  | none => (.error (.fault .missingOperand), s)
  | some entry =>
    match Machine.checkEntry entry with
    | .error e => (.error (.code e), { s with lowering := s.lowering.rollback u })
    | .ok () =>
      match (s.machine cancelled).runEntry entry s.world with
      | .error f w => (.error (.fault f), { s with world := w })
      | .ok x w =>
        (.ok x, Session.log { s with world := w }
          { level := .info, message := "evaluates to"
            fields := [("result", .real x), ("elapsed", .elapsed)] })

/-- Lowers a program and runs it. A program that cannot be lowered leaves no trace. -/
def execute (s : Session) (cancelled : Bool) (p : Program) : Except SessionError Float × Session :=
  match s.lowering.lower p with
  | (.error failure, lowering) =>
    let e : SessionError := match failure with
      | .diagnostic d => .diagnostic d
      | .misuse m => .misuse m
    let s := { s with lowering := lowering }
    (.error e, s.log
      { level := .debug, message := "unit rolled back", fields := [("error", .error e.message)] })
  | (.ok u, lowering) =>
    let s := { s with lowering := lowering }
    let s := if s.settings.optimize then u.functions.foldl optimize s else s
    let s := if s.settings.dump then u.functions.foldl dump s else s
    s.runUnit cancelled u

def runSource (s : Session) (cancelled : Bool) (name : String) (cur : Cursor) :
    Option SessionError × Session :=
  match Program.parseCursor cur with
  | .error d => (some (.diagnostic d), s.report name (.diagnostic d))
  | .ok p =>
    match s.execute cancelled p with
    | (.error e, s) => (some e, s.report name e)
    | (.ok _, s) => (none, s)

def runFile (s : Session) (cancelled : Bool) (files : Files) (path : String) :
    Option SessionError × Session :=
  match files.read path with
  | .ok text => s.runSource cancelled path (.ofString text)
  | .error .isDirectory =>
    s.runSource cancelled path
      { rest := [], failure := some (FileError.isDirectory.readMessage path) }
  | .error e =>
    let e := SessionError.other (e.readMessage path)
    (some e, s.report "" e)

def global? (s : Session) (name : String) : Option Value := s.world.global? s.module name

def globals (s : Session) : List (Slot × Value) :=
  s.module.globals.map fun g => (g, s.world.globals.getD g.index .zero)

end Session

end RealScript
