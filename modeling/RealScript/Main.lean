import RealScript.CommandLine
import RealScript.History

/-! # The program

Collects the files that the arguments may name, runs the command and shows what it wrote. On a
terminal without a program to run, lines are asked for one at a time.
-/

namespace RealScript.Terminal

def stderrText (text : String) : IO Unit := do (← IO.getStderr).putStr text

def display (e : Event) : IO Unit := do
  match e with
  | .out bytes => (← IO.getStdout).write ⟨bytes.toArray⟩
  | .err text => stderrText text
  | .prompt text =>
    (← IO.getStdout).putStr text
    (← IO.getStdout).flush
  | .log _ | .history _ => pure ()

def candidates (args : List String) : List String :=
  Settings.defaultFile :: args.flatMap fun a => a :: (a.splitOn "=").drop 1

def readText (path : String) : IO (Option String) := do
  try return some (← IO.FS.readFile path) catch _ => return none

def collect (args : List String) : IO Files := do
  let mut files : Files := []
  for path in candidates args do
    if let some text ← readText path then files := files ++ [(path, text)]
  return files

def untilPrompt : (answered : Nat) → List Event → List Event
  | _, [] => []
  | 0, .prompt text :: _ => [.prompt text]
  | n + 1, .prompt text :: es => .prompt text :: untilPrompt n es
  | n, e :: es => e :: untilPrompt n es

/-- Asks for lines. A session depends on its answers alone, so it is run again with one more answer
each time, and only what is new is shown. -/
partial def interact (s : Session) (answers : List Answer) (shown : Nat) : IO Unit := do
  let (_, t) := Session.repl { s with world := { s.world with answers := answers } } false
  let events := untilPrompt answers.length t.world.events.toList
  (events.drop shown).forM display
  let line ← (← IO.getStdin).getLine
  if line.isEmpty then (t.world.events.toList.drop events.length).forM display
  else
    let text := if line.endsWith "\n" then (line.dropEnd 1).toString else line
    interact s (answers ++ [.line text]) events.length

def readInput : IO String := do (← IO.getStdin).readToEnd

def home : IO Settings := do
  return match ← IO.getEnv "HOME" with
    | some dir => .forHome dir
    | none => {}

def run (args : List String) : IO UInt32 := do
  let files ← collect args
  match CommandLine.plan (← home) files args with
  | .error o => finish o
  | .ok p =>
    if p.file.isNone && (← (← IO.getStdin).isTty) then
      match p.start {} with
      | .error o => finish o
      | .ok s =>
        interact s [] 0
        return 0
    else finish (p.run files (← readInput))
where
  finish (o : Outcome) : IO UInt32 := do
    o.events.forM display
    return o.status.toUInt32

end RealScript.Terminal

def main (args : List String) : IO UInt32 := RealScript.Terminal.run args
