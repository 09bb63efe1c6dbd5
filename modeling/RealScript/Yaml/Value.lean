import RealScript.Decimal.Reader
import RealScript.Integer
import RealScript.Text.Base64
import RealScript.Text.Bytes
import RealScript.Yaml.Timestamp

/-! # What YAML scalars mean

A scalar with a tag means what the tag says, or is an error. Without a tag a quoted scalar is a
string, and the form of a plain scalar tells what it is.
-/

namespace RealScript

inductive YamlValue where
  | null
  | bool (b : Bool)
  | int (n : Int)
  | float (x : Float)
  | timestamp
  | str (s : String)
  deriving Repr

namespace YamlValue

def trueNames : List String := ["true", "True", "TRUE"]

def falseNames : List String := ["false", "False", "FALSE"]

def nullNames : List String := ["", "~", "null", "Null", "NULL"]

private def infinity : Float := 1 / 0

def constant? (s : String) : Option YamlValue :=
  if trueNames.contains s then some (.bool true)
  else if falseNames.contains s then some (.bool false)
  else if nullNames.contains s then some .null
  else if [".nan", ".NaN", ".NAN"].contains s then some (.float (0 / 0))
  else if [".inf", ".Inf", ".INF", "+.inf", "+.Inf", "+.INF"].contains s then some (.float infinity)
  else if ["-.inf", "-.Inf", "-.INF"].contains s then some (.float (-infinity))
  else none

private def dropSign : List Char → List Char
  | '-' :: cs | '+' :: cs => cs
  | cs => cs

private def isExponent : List Char → Bool
  | [] => true
  | e :: cs =>
    let ds := dropSign cs
    (e == 'e' || e == 'E') && !ds.isEmpty && ds.all Char.isDigit

def isDecimal (cs : List Char) : Bool :=
  let cs := dropSign cs
  let whole := cs.takeWhile Char.isDigit
  match cs.dropWhile Char.isDigit with
  | '.' :: rest =>
    (!whole.isEmpty || !(rest.takeWhile Char.isDigit).isEmpty) &&
      isExponent (rest.dropWhile Char.isDigit)
  | rest => !whole.isEmpty && isExponent rest

def markedInteger? : List Char → Option Int
  | '0' :: 'b' :: cs => (Integer.readBase 2 cs).toOption
  | '0' :: 'o' :: cs => (Integer.readBase 8 cs).toOption
  | _ => none

def integer? (cs : List Char) : Option Int :=
  match Integer.readChars cs with
  | .ok n => some n
  | .error _ => (Integer.magnitude cs).toOption.map Int.ofNat

def number? (s : String) : Option YamlValue :=
  let cs := s.toList.filter (· != '_')
  (integer? cs).map .int
    <|> (if isDecimal cs then (Decimal.readChars cs).map .float else none)
    <|> (markedInteger? cs).map .int

def ofPlain (s : String) : YamlValue :=
  match constant? s with
  | some v => v
  | none =>
    match s.toList with
    | c :: _ =>
      if c == '.' then ((Decimal.read? s).map .float).getD (.str s)
      else if c.isDigit || c == '-' || c == '+' then
        if Timestamp.isTimestamp s then .timestamp else (number? s).getD (.str s)
      else .str s
    | [] => .null

private def asFloat? : YamlValue → Option YamlValue
  | .float x => some (.float x)
  | .int n => if n < Nat.pow 2 63 then some (.float (Float.ofInt n)) else none
  | _ => none

/-- What a scalar means. A tag that its form does not fit is an error; tags without a meaning make
strings. -/
def ofScalar? (tag : Option String) (quoted : Bool) (s : String) : Option YamlValue :=
  match tag with
  | none => some (if quoted then .str s else ofPlain s)
  | some "!!binary" => (Text.ofBase64? s).map fun bytes => .str (String.ofList (Text.decode bytes))
  | some "!!float" => asFloat? (ofPlain s)
  | some "!!null" => if let .null := ofPlain s then some .null else none
  | some "!!bool" => if let .bool b := ofPlain s then some (.bool b) else none
  | some "!!int" => if let .int n := ofPlain s then some (.int n) else none
  | some "!!timestamp" => if let .timestamp := ofPlain s then some .timestamp else none
  | some _ => some (.str s)

def text (v : YamlValue) (written : String) : String :=
  match v with
  | .str s => s
  | _ => written

end YamlValue

end RealScript
