import RealScript.Duration
import RealScript.Integer
import RealScript.Text.Quoted

/-! # Command line flags -/

namespace RealScript

inductive FlagKind where
  | switch | text | integer | duration
  deriving DecidableEq, Repr

inductive FlagValue where
  | switch (b : Bool)
  | text (s : String)
  | integer (n : Int)
  | duration (d : Duration)
  deriving DecidableEq, Repr

inductive ValueError where
  | malformed
  | outOfRange
  deriving DecidableEq, Repr

def ValueError.message : ValueError → String
  | .malformed => "parse error"
  | .outOfRange => "value out of range"

structure Flag where
  name : String
  kind : FlagKind
  usage : String
  shown : Option String := none

inductive FlagError where
  | help
  | undefined (name : String)
  | noArgument (name : String)
  | badSyntax (arg : String)
  | badSwitch (name value : String) (e : ValueError)
  | badValue (name value : String) (e : ValueError)
  deriving DecidableEq, Repr

def FlagError.message : FlagError → Option String
  | .help => none
  | .undefined name => some ("flag provided but not defined: -" ++ name)
  | .noArgument name => some ("flag needs an argument: -" ++ name)
  | .badSyntax arg => some ("bad flag syntax: " ++ arg)
  | .badSwitch name value e =>
    some ("invalid boolean value " ++ Text.quoted value ++ " for -" ++ name ++ ": " ++ e.message)
  | .badValue name value e =>
    some ("invalid value " ++ Text.quoted value ++ " for flag -" ++ name ++ ": " ++ e.message)

namespace Flag

def switchValue (s : String) : Except ValueError Bool :=
  if ["1", "t", "T", "TRUE", "true", "True"].contains s then .ok true
  else if ["0", "f", "F", "FALSE", "false", "False"].contains s then .ok false
  else .error .malformed

def parseValue (kind : FlagKind) (s : String) : Except ValueError FlagValue :=
  match kind with
  | .switch => (switchValue s).map .switch
  | .text => .ok (.text s)
  | .integer =>
    match Integer.read s with
    | .ok n => .ok (.integer n)
    | .error .malformed => .error .malformed
    | .error .outOfRange => .error .outOfRange
  | .duration =>
    match Duration.read? s with
    | some d => .ok (.duration d)
    | none => .error .malformed

private def kindName : FlagKind → String
  | .switch => ""
  | .text => " string"
  | .integer => " int"
  | .duration => " duration"

def describe (f : Flag) : String :=
  let head := "  -" ++ f.name ++ kindName f.kind
  let sep := if head.length ≤ 4 then "\t" else "\n    \t"
  head ++ sep ++ f.usage ++ ((f.shown.map fun d => " (default " ++ d ++ ")").getD "") ++ "\n"

inductive Written where
  | positional
  | endOfFlags
  | malformed
  | flag (name : String) (value : Option String)
  deriving DecidableEq, Repr

private def splitValue (cs : List Char) : Written :=
  match cs with
  | [] => .malformed
  | c :: rest =>
    if c = '-' || c = '=' then .malformed
    else
      let name := String.ofList (c :: rest.takeWhile (· != '='))
      match rest.dropWhile (· != '=') with
      | _ :: value => .flag name (some (String.ofList value))
      | [] => .flag name none

def written (arg : String) : Written :=
  match arg.toList with
  | ['-', '-'] => .endOfFlags
  | '-' :: '-' :: rest => splitValue rest
  | '-' :: c :: rest => splitValue (c :: rest)
  | _ => .positional

structure Parsed where
  values : List (String × FlagValue) := []
  rest : List String := []
  deriving Repr

def set (p : Parsed) (name : String) (v : FlagValue) : Parsed :=
  { p with values := p.values ++ [(name, v)] }

def parse (flags : List Flag) (p : Parsed) : List String → Except FlagError Parsed
  | [] => .ok p
  | arg :: rest =>
    match written arg with
    | .positional => .ok { p with rest := arg :: rest }
    | .endOfFlags => .ok { p with rest := rest }
    | .malformed => .error (.badSyntax arg)
    | .flag name value =>
      match flags.find? (·.name == name) with
      | none => .error (if name = "help" || name = "h" then .help else .undefined name)
      | some f =>
        if f.kind = .switch then
          match parseValue f.kind (value.getD "true") with
          | .ok v => parse flags (set p name v) rest
          | .error e => .error (.badSwitch name (value.getD "true") e)
        else match value, rest with
          | some text, rest =>
            match parseValue f.kind text with
            | .ok v => parse flags (set p name v) rest
            | .error e => .error (.badValue name text e)
          | none, [] => .error (.noArgument name)
          | none, text :: rest =>
            match parseValue f.kind text with
            | .ok v => parse flags (set p name v) rest
            | .error e => .error (.badValue name text e)

def Parsed.value? (p : Parsed) (name : String) : Option FlagValue := p.values.reverse.lookup name

end Flag

end RealScript
