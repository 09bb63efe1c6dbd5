import RealScript.Decimal.Layout
import RealScript.Settings

/-! # Log records

A record is written as a line for people or as a line of JSON. Measured times are written as `T`
for people and left out of JSON, so that what is logged depends on the input alone.
-/

namespace RealScript

inductive LogValue where
  | text (s : String)
  | error (s : String)
  | count (n : Nat)
  | real (x : Float)
  | elapsed
  deriving Repr

structure LogRecord where
  level : LogLevel
  message : String
  fields : List (String × LogValue) := []
  deriving Repr

inductive LogSink where
  | nowhere
  | json
  | console (least : LogLevel) (color : Bool)
  deriving DecidableEq, Repr

namespace LogRecord

def jsonChar (c : Char) : List Char :=
  match c with
  | '"' => ['\\', '"']
  | '\\' => ['\\', '\\']
  | '\n' => ['\\', 'n']
  | '\r' => ['\\', 'r']
  | '\t' => ['\\', 't']
  | c =>
    if c.toNat = 8 then ['\\', 'b']
    else if c.toNat = 12 then ['\\', 'f']
    else if c.toNat < 0x20 || c.toNat = 0x7F then '\\' :: 'u' :: Text.hexDigits 4 c.toNat
    else [c]

def jsonString (s : String) : String :=
  String.ofList ('"' :: s.toList.flatMap jsonChar ++ ['"'])

def realText (x : Float) : String := Decimal.positional x

def jsonValue : LogValue → Option String
  | .text s | .error s => some (jsonString s)
  | .count n => some (toString n)
  | .real x => some (if x.isFinite then realText x else jsonString (realText x))
  | .elapsed => none

def json (r : LogRecord) : String :=
  let fields := r.fields.filterMap fun (key, v) =>
    (jsonValue v).map fun text => jsonString key ++ ":" ++ text
  let all := ["\"level\":" ++ jsonString r.level.name] ++ fields ++
    ["\"message\":" ++ jsonString r.message]
  "\x7b" ++ ",".intercalate all ++ "\x7d"

def needsQuote (s : String) : Bool :=
  s.toList.any fun c => c.toNat ≤ 0x20 || 0x7E < c.toNat || c == '\\' || c == '"'

private def escape : String := String.ofList [Char.ofNat 0x1B]

def colored (color : Bool) (code text : String) : String :=
  if color then escape ++ "[" ++ code ++ "m" ++ text ++ escape ++ "[0m" else text

def plainValue : LogValue → String
  | .text s | .error s => if needsQuote s then Text.quoted s else s
  | .count n => toString n
  | .real x => realText x
  | .elapsed => "T"

def consoleField (color : Bool) (key : String) (v : LogValue) : String :=
  let value := match v with
    | .error _ => colored color "31" (plainValue v)
    | v => plainValue v
  colored color "36" (key ++ "=") ++ value

def tag : LogLevel → String × String
  | .trace => ("35", "TRC")
  | .debug => ("33", "DBG")
  | .info => ("32", "INF")
  | .warn => ("31", "WRN")
  | .error => ("31", "ERR")
  | .disabled => ("1", "???")

private def isError : LogValue → Bool
  | .error _ => true
  | _ => false

def console (color : Bool) (r : LogRecord) : String :=
  let sorted := r.fields.mergeSort fun a b => !decide (b.1 < a.1)
  let fields := sorted.filter (isError ·.2) ++ sorted.filter (!isError ·.2)
  let (code, name) := tag r.level
  " ".intercalate (colored color code name :: r.message ::
    fields.map fun (key, v) => consoleField color key v) ++ "\n"

end LogRecord

end RealScript
