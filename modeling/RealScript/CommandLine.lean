import RealScript.CommandLine.Flags
import RealScript.Session
import RealScript.Settings.Loader

/-! # The command line

Runs the program in a file, or the one on the standard input.
-/

namespace RealScript

structure Outcome where
  status : Nat
  events : List Event
  deriving Repr

namespace CommandLine

def flags : List Flag := [
  { name := "config", kind := .text
    usage := "YAML config file (default: " ++ Settings.defaultFile ++ " if present)" },
  { name := "dump", kind := .switch
    usage := "print the IR of every unit to stderr before running it" },
  { name := "optimize", kind := .switch
    usage := "run the IR optimizer on every unit", shown := some "true" },
  { name := "timeout", kind := .duration, usage := "abort a unit that runs longer than this" },
  { name := "v", kind := .switch, usage := "debug logging" },
  { name := "workers", kind := .integer
    usage := "worker pool size for map and filter (default: config or CPU count)" }]

def usage : String :=
  "usage: dolang [flags] [file]\n" ++ String.join (flags.map Flag.describe)

def override (s : Settings) : String × FlagValue → Settings
  | ("optimize", .switch b) => { s with optimize := b }
  | ("dump", .switch b) => { s with dump := b }
  | ("workers", .integer n) => { s with workers := n }
  | ("timeout", .duration d) => { s with timeout := d }
  | _ => s

private def complain (status : Nat) (text : String) : Outcome := ⟨status, [.err text]⟩

structure Plan where
  settings : Settings
  verbose : Bool
  file : Option String
  deriving Repr

def plan (base : Settings) (files : Files) (args : List String) : Except Outcome Plan := do
  let p ← match Flag.parse flags {} args with
    | .error .help => throw (complain 0 usage)
    | .error e => throw (complain 2 ((e.message.map (· ++ "\n")).getD "" ++ usage))
    | .ok p => pure p
  if 1 < p.rest.length then throw (complain 2 usage)
  let path := match p.value? "config" with
    | some (.text path) => path
    | _ => ""
  let settings ← match base.load files path with
    | .error e => throw (complain 1 ("error: " ++ e.message ++ "\n"))
    | .ok settings => pure (p.values.foldl override settings)
  let verbose := p.value? "v" == some (.switch true)
  return {
    settings := if verbose then { settings with logLevel := "debug" } else settings
    verbose := verbose
    file := p.rest.head? }

def Plan.start (p : Plan) (world : World) : Except Outcome Session :=
  match Session.start p.settings (Session.consoleSink p.settings false) false world with
  | .error e => .error (complain 1 ("error: " ++ e.message ++ "\n"))
  | .ok s => .ok s

def Plan.run (p : Plan) (files : Files) (stdin : String) : Outcome :=
  let input := if p.file.isSome then stdin.toUTF8.toList else []
  match p.start { source := .stream { bytes := input } } with
  | .error o => o
  | .ok s =>
    let (failure, s) := match p.file with
      | some file => s.runFile false files file
      | none => s.runSource false "<stdin>" (.ofString stdin)
    let events := s.world.events.toList
    if failure.isSome then ⟨1, events⟩
    else if p.verbose then ⟨0, events ++ [.err "done in T\n"]⟩
    else ⟨0, events⟩

def run (base : Settings) (files : Files) (stdin : String) (args : List String) : Outcome :=
  match plan base files args with
  | .error o => o
  | .ok p => p.run files stdin

end CommandLine

end RealScript
