import RealScript.Files
import RealScript.Settings
import RealScript.Yaml.Document
import RealScript.Yaml.Value

/-! # Settings from a file

A YAML mapping overrides the settings that it names. Keys that name no setting are ignored.
-/

namespace RealScript

inductive LoadError where
  | file (path : String) (e : FileError)
  | malformed (path : String)
  | invalid (path : String) (e : SettingsError)
  deriving DecidableEq, Repr

def LoadError.message : LoadError → String
  | .file path e => "read config " ++ Text.quoted path ++ ": " ++ e.readMessage path
  | .malformed path => "parse config " ++ Text.quoted path ++ ": yaml: malformed document"
  | .invalid path e => "config " ++ Text.quoted path ++ ": " ++ e.message

namespace Settings

def defaultFile : String := ".dolang.yaml"

private def yesNames : List String := ["y", "Y", "yes", "Yes", "YES", "on", "On", "ON"]

private def noNames : List String := ["n", "N", "no", "No", "NO", "off", "Off", "OFF"]

def boolOf : YamlValue → Option Bool
  | .bool b => some b
  | .str s =>
    if yesNames.contains s then some true else if noNames.contains s then some false else none
  | _ => none

private def least : Int := -Nat.pow 2 63

def intOfFloat (x : Float) : Option Int :=
  if x ≤ 9223372036854775807 then
    if x ≥ -9223372036854775808 && x < 9223372036854775808 then some x.toInt64.toInt
    else some least
  else none

def intOf : YamlValue → Option Int
  | .int n => if n < Nat.pow 2 63 then some n else none
  | .float x => intOfFloat x
  | _ => none

def durationOf : YamlValue → Option Duration
  | .str s => Duration.read? s
  | _ => none

def setter? (key : String) : Option (Settings → YamlValue → String → Option Settings) :=
  let put {α : Type} (f : YamlValue → Option α) (g : Settings → α → Settings) :=
    some fun s v (_ : String) => (f v).map (g s)
  let putText (g : Settings → String → Settings) :=
    some fun s (v : YamlValue) text => some (g s (v.text text))
  match key with
  | "optimize" => put boolOf fun s b => { s with optimize := b }
  | "dump" => put boolOf fun s b => { s with dump := b }
  | "workers" => put intOf fun s n => { s with workers := n }
  | "prompt" => putText fun s t => { s with prompt := t }
  | "continuation_prompt" => putText fun s t => { s with continuationPrompt := t }
  | "history_file" => putText fun s t => { s with historyFile := t }
  | "log_level" => putText fun s t => { s with logLevel := t }
  | "timeout" => put durationOf fun s d => { s with timeout := d }
  | "max_call_depth" => put intOf fun s n => { s with maxCallDepth := n }
  | _ => none

end Settings

structure Overlay where
  settings : Settings
  given : List String := []
  visits : Nat := 0
  shared : Nat := 0

abbrev Overlaying := StateT Overlay Option

namespace Overlay

/-- Whether too many of the visits go through aliases. The share that is allowed falls from 99 to 10
per cent as their number goes from 400000 to ten times that. -/
def isExcessive (o : Overlay) : Bool :=
  let percent (n : Nat) : Bool := o.visits * n < o.shared * 100
  100 < o.shared && 1000 < o.visits &&
    if o.visits ≤ 400000 then percent 99
    else if 4000000 ≤ o.visits then percent 10
    else o.visits * (356400000 - 89 * (o.visits - 400000)) < o.shared * 360000000

def visit (viaAlias : Bool) : Overlaying Unit := do
  modify fun o =>
    { o with visits := o.visits + 1, shared := if viaAlias then o.shared + 1 else o.shared }
  if (← get).isExcessive then failure

def scalar (viaAlias : Bool) (node : Yaml) : Overlaying (YamlValue × String) := do
  visit viaAlias
  match node with
  | .scalar tag quoted text => return (← YamlValue.ofScalar? tag quoted text, text)
  | .aliased _ (some (.scalar tag quoted text)) =>
    visit true
    return (← YamlValue.ofScalar? tag quoted text, text)
  | _ => failure

def isMerge : Yaml → Bool
  | .scalar tag quoted text => text == "<<" && (tag == some "!!merge" || (tag.isNone && !quoted))
  | _ => false

/-- Takes over a pair. A missing key or value changes nothing. Only the first of several values for
a setting counts; in the document's own mapping, which comes `first`, there must not be another. -/
def pair (first viaAlias : Bool) (key value : Yaml) : Overlaying Unit := do
  let (name, text) ← scalar viaAlias key
  if name matches .null then return
  let name := name.text text
  let some set := Settings.setter? name | return
  if (← get).given.contains name then
    if first then failure
  else
    modify fun o => { o with given := name :: o.given }
    let (v, text) ← scalar viaAlias value
    if v matches .null then return
    let settings ← set (← get).settings v text
    modify fun o => { o with settings }

def ownPairs (first viaAlias : Bool) (pairs : List (Yaml × Yaml)) : Overlaying Unit := do
  if ¬ (pairs.map (·.1.label)).Nodup then failure
  for (key, value) in pairs do
    if !isMerge key then pair first viaAlias key value

mutual

def mergeNode (viaAlias : Bool) : Yaml → Overlaying Unit
  | .mapping pairs => do
    visit viaAlias
    ownPairs false viaAlias pairs
    mergePairs viaAlias pairs
  | .aliased _ target => do
    visit viaAlias
    mergeTarget target
  | _ => failure

def mergeTarget : Option Yaml → Overlaying Unit
  | some n => mergeNode true n
  | none => failure

def mergePairs (viaAlias : Bool) : List (Yaml × Yaml) → Overlaying Unit
  | [] => return
  | p :: rest => if isMerge p.1 then mergePair viaAlias p else mergePairs viaAlias rest

def mergePair (viaAlias : Bool) : Yaml × Yaml → Overlaying Unit
  | (_, value) =>
    match value with
    | .sequence items => mergeItems viaAlias items
    | n => mergeNode viaAlias n

def mergeItems (viaAlias : Bool) : List Yaml → Overlaying Unit
  | [] => return
  | n :: rest => do
    mergeNode viaAlias n
    mergeItems viaAlias rest

end

def revisitKeys (pairs : List (Yaml × Yaml)) : Overlaying Unit := do
  if pairs.any (isMerge ·.1) then
    for (key, _) in pairs do discard (scalar false key)

def document : Yaml → Overlaying Unit
  | .mapping pairs => do
    visit false
    visit false
    ownPairs true false pairs
    revisitKeys pairs
    mergePairs false pairs
  | node => do
    match ← scalar false node with
    | (.null, _) => return
    | _ => failure

end Overlay

namespace Settings

/-- Overrides settings by a document. What a merge key brings in gives way to the keys beside it. -/
def overlay (s : Settings) (root : Yaml) : Option Settings :=
  ((Overlay.document root).run { settings := s }).map fun (_, o) => o.settings

def load (base : Settings) (files : Files) (path : String) : Except LoadError Settings := do
  let name := if path = "" then defaultFile else path
  match files.read name with
  | .error e => if path = "" && e = .missing then return base else throw (.file name e)
  | .ok text =>
    match (Yaml.read? text).bind base.overlay with
    | none => throw (.malformed name)
    | some s =>
      match s.validate with
      | .error e => throw (.invalid name e)
      | .ok () => return s

end Settings

end RealScript
