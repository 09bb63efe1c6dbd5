import RealScript.Session

/-! # Interactive sessions

Lines are asked for and gathered until they parse, or fail for another reason than that the input
ended too early. Each such chunk is a program of its own.
-/

namespace RealScript

namespace Repl

def name : String := "<repl>"

inductive Chunk where
  | program (src : String) (p : Program)
  | broken (src : String) (e : SessionError)
  | aborted
  | ended
  deriving Repr

def readChunk : (fuel : Nat) → Session → (src : String) → Chunk × Session
  | 0, s, _ => (.ended, s)
  | fuel + 1, s, src =>
    let prompt := if src = "" then s.settings.prompt else s.settings.continuationPrompt
    match s.world.ask prompt with
    | (.error .ended, w) => (.ended, { s with world := w })
    | (.error .aborted, w) => (.aborted, { s with world := w })
    | (.error (.failed text), w) => (.broken src (.other text), { s with world := w })
    | (.ok line, w) =>
      let s := { s with world := w }
      let src := if src = "" then line else src ++ "\n" ++ line
      match Program.parse src with
      | .ok p => (.program src p, s)
      | .error d =>
        if d.incomplete then readChunk fuel s src else (.broken src (.diagnostic d), s)

def oneLine (src : String) : String := src.map fun c => if c = '\n' then ' ' else c

def remember (s : Session) (src : String) : Session := s.emit (.history (oneLine src))

def loop (cancelled : Bool) : (fuel : Nat) → Session → Option Interrupt × Session
  | 0, s => (none, s)
  | fuel + 1, s =>
    if cancelled then (some .cancelled, s)
    else match readChunk (s.world.answers.length + 1) s "" with
      | (.ended, s) => (none, s.emit (.out [10]))
      | (.aborted, s) => loop cancelled fuel s
      | (.broken src e, s) => loop cancelled fuel ((remember s src).report name e)
      | (.program _ [], s) => loop cancelled fuel s
      | (.program src p, s) =>
        match (remember s src).execute cancelled p with
        | (.error e, s) => loop cancelled fuel (s.report name e)
        | (.ok _, s) => loop cancelled fuel s

end Repl

/-- Runs a session on the answers to its prompts. Every round takes an answer. -/
def Session.repl (s : Session) (cancelled : Bool) : Option Interrupt × Session :=
  let s := { s with world := { s.world with source := .prompts } }
  Repl.loop cancelled (s.world.answers.length + 1) s

end RealScript
