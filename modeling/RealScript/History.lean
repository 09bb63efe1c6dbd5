import RealScript.Files
import RealScript.Repl
import RealScript.Text.Bytes

/-! # Interactive sessions with a history file

The lines of the history file come first. An item that repeats the last one is not added again, and
only the last thousand are kept.
-/

namespace RealScript

namespace History

def limit : Nat := 1000

def trim (items : List String) : List String := items.drop (items.length - limit)

def append (items : List String) (item : String) : List String :=
  if items.getLast? = some item then items else trim (items ++ [item])

structure Piece where
  text : String
  whole : Bool := true
  deriving DecidableEq, Repr

def pieceSize : Nat := 4096

private def lineFeed : UInt8 := 10

private def carriageReturn : UInt8 := 13

def Piece.ofReversed (line : List UInt8) (whole : Bool) : Piece :=
  ⟨String.ofList (Text.decode line.reverse), whole⟩

def dropReturn : List UInt8 → List UInt8
  | [] => []
  | b :: line => if b = carriageReturn then line else b :: line

/-- Splits bytes at line ends, and where a line is too long; `line` has the `size` bytes of the
current piece, last byte first. A carriage return that would end a piece goes to the next one. -/
def split (line : List UInt8) (size : Nat) (found : List Piece) : List UInt8 → List Piece
  | [] => (if line.isEmpty then found else .ofReversed line true :: found).reverse
  | b :: rest =>
    if b = lineFeed then split [] 0 (.ofReversed (dropReturn line) true :: found) rest
    else if size + 1 < pieceSize then split (b :: line) (size + 1) found rest
    else if b = carriageReturn then split [b] 1 (.ofReversed line false :: found) rest
    else split [] 0 (.ofReversed (b :: line) false :: found) rest

def pieces (text : String) : List Piece := split [] 0 [] text.toUTF8.toList

def read (text : String) : List String :=
  trim (((pieces text).takeWhile (·.whole)).map (·.text))

def items (events : List Event) : List String :=
  events.filterMap fun
    | .history item => some item
    | _ => none

def render (items : List String) : String := String.join (items.map (· ++ "\n"))

end History

def Session.replWithHistory (s : Session) (text : String) (files : Files) : Session × Files :=
  let path := s.settings.historyFile
  let answers := (History.pieces text).map fun p => Answer.line p.text
  let (_, s) := Session.repl { s with world := { s.world with answers := answers } } false
  if path = "" then (s, files)
  else
    let before := match files.read path with
      | .ok text => History.read text
      | .error _ => []
    let after := (History.items s.world.events.toList).foldl History.append before
    match files.write path (History.render after) with
    | .ok files => (s, files)
    | .error e =>
      (s.log
        { level := .debug, message := "history not saved"
          fields := [("error", .error (e.openMessage path)), ("path", .text path)] }, files)

end RealScript
