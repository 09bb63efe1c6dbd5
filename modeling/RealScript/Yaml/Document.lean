import RealScript.Yaml
import RealScript.Yaml.Token

/-! # The tree of a YAML document

Builds the tree of the first document of a text from its tokens. The collections around the current
node are kept as a list of what is still open, so deep trees need no deep recursion.
-/

namespace RealScript

inductive YamlOpen where
  | items (found : List Yaml)
  | levelItems (found : List Yaml)
  | keys (found : List (Yaml × Yaml))
  | value (found : List (Yaml × Yaml)) (key : Yaml)
  | flowItems (found : List Yaml) (first : Bool)
  | pairKey
  | pairValue (key : Yaml)
  | flowKeys (found : List (Yaml × Yaml)) (first : Bool)
  | flowValue (found : List (Yaml × Yaml)) (key : Yaml)
  | loneKey (found : List (Yaml × Yaml))

inductive YamlStep where
  | node (block level : Bool)
  | goOn
  | found (n : Yaml)

structure YamlBuilder where
  tokens : YamlTokens
  handles : List (String × String) := []
  anchors : List (String × Nat) := []
  anchorCount : Nat := 0
  complete : List (Nat × Yaml) := []
  parts : List (Option Nat × YamlOpen) := []

abbrev YamlBuild := StateT YamlBuilder Option

namespace YamlBuild

def scanning {α : Type} (r : YamlScan α) : YamlBuild α := fun s =>
  (r s.tokens).map fun (a, tokens) => (a, { s with tokens })

def peek : YamlBuild YamlToken := scanning YamlScan.peek

def drop : YamlBuild Unit := scanning YamlScan.drop

def advance : YamlBuild YamlToken := do
  drop
  peek

/-! ### Directives -/

private def tagNamespace : String := "tag:yaml.org,2002:"

private def addHandle (handle stem : String) : YamlBuild Unit :=
  modify fun s => { s with handles := s.handles ++ [(handle, stem)] }

private def addDefaultHandles : YamlBuild Unit := do
  for (handle, stem) in [("!", "!"), ("!!", tagNamespace)] do
    if ((← get).handles.lookup handle).isNone then addHandle handle stem

def directives : (fuel : Nat) → (versioned : Bool) → YamlBuild Unit
  | 0, _ => return
  | fuel + 1, versioned => do
    match ← peek with
    | .directive (.version major minor) =>
      if versioned || major != 1 || minor != 1 then failure
      drop
      directives fuel true
    | .directive (.handle handle stem) =>
      if ((← get).handles.lookup handle).isSome then failure
      addHandle handle stem
      drop
      directives fuel versioned
    | _ => addDefaultHandles

/-! ### Nodes -/

def tagName (word : YamlTagWord) : YamlBuild String := do
  let name ← (do
    if word.handle = "" then return word.suffix
    match (← get).handles.lookup word.handle with
    | some stem => return stem ++ word.suffix
    | none => failure)
  if name.startsWith tagNamespace then
    return "!!" ++ (name.drop tagNamespace.length).toString
  else return name

def properties : YamlBuild (Option String × Option YamlTagWord) := do
  match ← peek with
  | .anchor name =>
    match ← advance with
    | .tag word => drop; return (some name, some word)
    | _ => return (some name, none)
  | .tag word =>
    match ← advance with
    | .anchor name => drop; return (some name, some word)
    | _ => return (none, some word)
  | _ => return (none, none)

def register (anchor : Option String) : YamlBuild (Option Nat) :=
  match anchor with
  | none => return none
  | some name => modifyGet fun s =>
    (some s.anchorCount,
      { s with
        anchors := (name, s.anchorCount) :: s.anchors.filter (·.1 != name)
        anchorCount := s.anchorCount + 1 })

def settle (number : Option Nat) (n : Yaml) : YamlBuild YamlStep := do
  if let some i := number then modify fun s => { s with complete := (i, n) :: s.complete }
  return .found n

def resolve (name : String) : YamlBuild Yaml := do
  let s ← get
  match s.anchors.lookup name with
  | some i => return .aliased name (s.complete.lookup i)
  | none => failure

def enter (number : Option Nat) (o : YamlOpen) : YamlBuild YamlStep := do
  modify fun s => { s with parts := (number, o) :: s.parts }
  return .goOn

def startNode (block level : Bool) : YamlBuild YamlStep := do
  if let .aliased name ← peek then
    drop
    return .found (← resolve name)
  let (anchor, word) ← properties
  let tag ← word.mapM tagName
  let tag := tag.filter (· != "!")
  match ← peek with
  | .scalar text quoted =>
    drop
    settle (← register anchor) (.scalar tag quoted text)
  | .flowSequence => drop; enter (← register anchor) (.flowItems [] true)
  | .flowMapping => drop; enter (← register anchor) (.flowKeys [] true)
  | t =>
    if level && t = .blockEntry then enter (← register anchor) (.levelItems [])
    else if block && t = .blockSequence then drop; enter (← register anchor) (.items [])
    else if block && t = .blockMapping then drop; enter (← register anchor) (.keys [])
    else if anchor.isSome || word.isSome then
      settle (← register anchor) (.scalar tag false "")
    else failure

/-! ### Collections -/

private def missing : YamlBuild YamlStep := return .found Yaml.empty

private def close (n : Yaml) : YamlBuild YamlStep := do
  match (← get).parts with
  | (number, _) :: rest =>
    modify fun s => { s with parts := rest }
    settle number n
  | [] => failure

private def nodeUnless (ends : List YamlToken) (step : YamlStep) : YamlBuild YamlStep := do
  if ends.contains (← peek) then missing else return step

private def nextFlowItem (found : List Yaml) (first : Bool) : YamlBuild YamlStep := do
  let t ← peek
  let t ← if first || t = .flowSequenceEnd then pure t
    else if t = .flowEntry then advance
    else failure
  if t = .flowSequenceEnd then
    drop
    close (.sequence found.reverse)
  else if t = .key then
    drop
    enter none .pairKey
  else return .node false false

private def nextFlowKey (found : List (Yaml × Yaml)) (first : Bool) : YamlBuild YamlStep := do
  let t ← peek
  let t ← if first || t = .flowMappingEnd then pure t
    else if t = .flowEntry then advance
    else failure
  if t = .flowMappingEnd then
    drop
    close (.mapping found.reverse)
  else if t = .key then
    drop
    nodeUnless [.value, .flowEntry, .flowMappingEnd] (.node false false)
  else
    modify fun s => { s with parts := s.parts.modifyHead fun (i, _) => (i, .loneKey found) }
    return .node false false

def goOn : YamlOpen → YamlBuild YamlStep
  | .items found => do
    match ← peek with
    | .blockEntry => drop; nodeUnless [.blockEntry, .blockEnd] (.node true false)
    | .blockEnd => drop; close (.sequence found.reverse)
    | _ => failure
  | .levelItems found => do
    match ← peek with
    | .blockEntry =>
      drop
      nodeUnless [.blockEntry, .key, .value, .blockEnd] (.node true false)
    | _ => close (.sequence found.reverse)
  | .keys found => do
    match ← peek with
    | .key => drop; nodeUnless [.key, .value, .blockEnd] (.node true true)
    | .blockEnd => drop; close (.mapping found.reverse)
    | _ => failure
  | .value .. => do
    match ← peek with
    | .value => drop; nodeUnless [.key, .value, .blockEnd] (.node true true)
    | _ => missing
  | .flowItems found first => nextFlowItem found first
  | .pairKey => do
    -- Where the key of a pair is missing, the token behind it is passed over.
    match ← nodeUnless [.value, .flowEntry, .flowSequenceEnd] (.node false false) with
    | .found n => drop; return .found n
    | step => return step
  | .pairValue _ => do
    match ← peek with
    | .value => drop; nodeUnless [.flowEntry, .flowSequenceEnd] (.node false false)
    | _ => missing
  | .flowKeys found first => nextFlowKey found first
  | .flowValue .. => do
    match ← peek with
    | .value => drop; nodeUnless [.flowEntry, .flowMappingEnd] (.node false false)
    | _ => missing
  | .loneKey _ => failure

def add (n : Yaml) : YamlOpen → YamlOpen ⊕ Yaml
  | .items found => .inl (.items (n :: found))
  | .levelItems found => .inl (.levelItems (n :: found))
  | .keys found => .inl (.value found n)
  | .value found key => .inl (.keys ((key, n) :: found))
  | .flowItems found _ => .inl (.flowItems (n :: found) false)
  | .pairKey => .inl (.pairValue n)
  | .pairValue key => .inr (.mapping [(key, n)])
  | .flowKeys found _ => .inl (.flowValue found n)
  | .flowValue found key => .inl (.flowKeys ((key, n) :: found) false)
  | .loneKey found => .inl (.flowKeys ((n, Yaml.empty) :: found) false)

def build : (fuel : Nat) → YamlStep → YamlBuild Yaml
  | 0, _ => failure
  | fuel + 1, step => do
    match step, (← get).parts with
    | .node block level, _ => build fuel (← startNode block level)
    | .goOn, (_, o) :: _ => build fuel (← goOn o)
    | .goOn, [] => failure
    | .found n, [] => return n
    | .found n, (i, o) :: rest =>
      match add n o with
      | .inl o =>
        modify fun s => { s with parts := (i, o) :: rest }
        build fuel .goOn
      | .inr n =>
        modify fun s => { s with parts := rest }
        build fuel (.found n)

/-! ### Documents -/

private def root : YamlBuild Yaml := do
  let n ← build (16 * (← scanning (YamlScan.reading YamlRead.steps)) + 64) (.node true false)
  let _ ← peek
  return n

private def markedRoot : YamlBuild Yaml := do
  match ← peek with
  | .directive _ | .documentStart | .documentEnd | .streamEnd => return Yaml.empty
  | _ => root

def document : YamlBuild Yaml := do
  match ← peek with
  | .streamEnd => return Yaml.empty
  | .directive _ | .documentStart =>
    directives (← scanning (YamlScan.reading YamlRead.steps)) false
    match ← peek with
    | .documentStart => drop; markedRoot
    | _ => failure
  | _ =>
    addDefaultHandles
    root

end YamlBuild

def Yaml.read? (s : String) : Option Yaml :=
  (YamlBuild.document.run { tokens := YamlTokens.ofString s }).map (·.1)

end RealScript
