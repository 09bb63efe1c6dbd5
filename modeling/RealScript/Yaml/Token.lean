import RealScript.Yaml.Scalar
import RealScript.Yaml.Tag

/-! # The tokens of a YAML text

Tokens are read ahead of the one that is looked at. A token that starts a key is known as such only
when a colon follows it on its line, so keys are marked in the queue after the fact. Blocks have no
brackets in the text: tokens for their starts and ends follow from the columns.
-/

namespace RealScript

open Yaml

inductive YamlToken where
  | streamEnd
  | directive (d : YamlDirective)
  | documentStart | documentEnd
  | blockSequence | blockMapping | blockEnd
  | blockEntry
  | flowSequence | flowSequenceEnd
  | flowMapping | flowMappingEnd
  | flowEntry
  | key | value
  | anchor (name : String)
  | aliased (name : String)
  | tag (word : YamlTagWord)
  | scalar (text : String) (quoted : Bool)
  deriving DecidableEq, Repr

structure YamlKey where
  possible : Bool := false
  required : Bool := false
  number : Nat := 0
  index : Nat := 0
  line : Nat := 0
  col : Nat := 0

structure YamlTokens where
  cursor : YamlCursor
  queue : List YamlToken := []
  taken : Nat := 0
  ready : Bool := false
  indent : Int := -1
  outerIndents : List Int := []
  depth : Nat := 0
  keys : List YamlKey := [{}]
  levels : List (Nat × Nat) := []
  keyAllowed : Bool := true

abbrev YamlScan := StateT YamlTokens Option

namespace YamlTokens

def ofString (s : String) : YamlTokens := { cursor := YamlCursor.ofString s }

def inFlow (s : YamlTokens) : Bool := 0 < s.depth

def nextNumber (s : YamlTokens) : Nat := s.taken + s.queue.length

def push (s : YamlTokens) (t : YamlToken) : YamlTokens := { s with queue := s.queue ++ [t] }

/-- Puts a token in front of the one with the given number. If that one is taken already, the token
comes last. -/
def insert (s : YamlTokens) (number : Nat) (t : YamlToken) : YamlTokens :=
  if number < s.taken then s.push t
  else { s with queue := s.queue.insertIdx (number - s.taken) t }

def forget (s : YamlTokens) (number : Nat) : YamlTokens :=
  { s with levels := s.levels.filter (·.1 != number) }

def currentKey (s : YamlTokens) : YamlKey := s.keys.headD {}

def setKey (s : YamlTokens) (level : Nat) (k : YamlKey) : YamlTokens :=
  { s with keys := s.keys.set (s.depth - level) k }

end YamlTokens

namespace YamlScan

open YamlTokens

def reading {α : Type} (r : YamlRead α) : YamlScan α := fun s =>
  (r s.cursor).map fun (a, cursor) => (a, { s with cursor })

def push (t : YamlToken) : YamlScan Unit := modify (·.push t)

def allowKey (allowed : Bool) : YamlScan Unit := modify fun s => { s with keyAllowed := allowed }

/-! ### Keys -/

private def keyReach : Nat := 1024

def isPossible (level : Nat) : YamlScan Bool := do
  let s ← get
  let some k := s.keys[s.depth - level]? | return false
  if !k.possible then return false
  else if k.line < s.cursor.line || k.index + keyReach < s.cursor.index then
    if k.required then failure
    set (s.setKey level { k with possible := false })
    return false
  else return true

def dropKey : YamlScan Unit := do
  let s ← get
  let k := s.currentKey
  if k.possible then
    if k.required then failure
    set ((s.forget k.number).setKey s.depth { k with possible := false })

def saveKey : YamlScan Unit := do
  let s ← get
  if s.keyAllowed then
    dropKey
    modify fun t =>
      let key : YamlKey :=
        { possible := true, required := !s.inFlow && s.indent = s.cursor.col
          number := s.nextNumber
          index := s.cursor.index, line := s.cursor.line, col := s.cursor.col }
      { t.setKey t.depth key with
        levels := (s.nextNumber, t.depth) :: t.levels.filter (·.1 != s.nextNumber) }

/-! ### Levels of blocks and brackets -/

private def depthLimit : Nat := 10000

/-- Starts a block if the column lies inside of the current one. The token of its start comes in
front of the token with the given number, or last. -/
def openBlock (col : Nat) (number : Option Nat) (t : YamlToken) : YamlScan Unit := do
  let s ← get
  if !s.inFlow && s.indent < col then
    if depthLimit ≤ s.outerIndents.length then failure
    let s := match number with
      | some n => s.insert n t
      | none => s.push t
    set { s with outerIndents := s.indent :: s.outerIndents, indent := (col : Int) }

def closeBlocks (s : YamlTokens) (col : Int) : List Int → YamlTokens
  | [] => s
  | i :: is =>
    if col < s.indent then
      closeBlocks { s.push .blockEnd with indent := i, outerIndents := is } col is
    else s

def endBlocks (col : Int) : YamlScan Unit := modify fun s =>
  if s.inFlow then s else closeBlocks s col s.outerIndents

def enterFlow : YamlScan Unit := do
  let s ← get
  if depthLimit ≤ s.depth then failure
  let c := s.cursor
  set { s with
        depth := s.depth + 1
        keys := { number := s.nextNumber, index := c.index, line := c.line, col := c.col } ::
          s.keys }

def leaveFlow : YamlScan Unit := modify fun s =>
  match s.keys with
  | k :: outer :: rest => { s.forget k.number with depth := s.depth - 1, keys := outer :: rest }
  | _ => s

/-! ### Reading tokens -/

def toToken : (fuel : Nat) → YamlScan Unit
  | 0 => return
  | fuel + 1 => do
    let s ← get
    if s.cursor.col = 0 && s.cursor.rest.head? = some byteOrderMark then reading YamlRead.skip
    let tabs := s.inFlow || !s.keyAllowed
    reading (YamlRead.skipWhile fun c => c == ' ' || (tabs && c == '\t'))
    if (← reading YamlRead.peek) = some '#' then
      reading (do YamlRead.skipComments (← YamlRead.steps))
    if atBreak (← reading YamlRead.peek) then
      let _ ← reading YamlRead.lineEnd
      if !s.inFlow then allowKey true
      toToken fuel

private def finish : YamlScan Unit := do
  endBlocks (-1)
  dropKey
  allowKey false

private def readEnd : YamlScan Unit := do
  modify fun s =>
    if s.cursor.col = 0 then s
    else { s with cursor := { s.cursor with col := 0, line := s.cursor.line + 1 } }
  finish
  push .streamEnd

private def readDirective : YamlScan Unit := do
  finish
  push (.directive (← reading YamlRead.directive))

private def readDocumentMark (t : YamlToken) : YamlScan Unit := do
  finish
  reading (do YamlRead.skip; YamlRead.skip; YamlRead.skip)
  push t

private def readFlowStart (t : YamlToken) : YamlScan Unit := do
  saveKey
  enterFlow
  allowKey true
  reading YamlRead.skip
  push t

private def readFlowEnd (t : YamlToken) : YamlScan Unit := do
  dropKey
  leaveFlow
  allowKey false
  reading YamlRead.skip
  push t

private def readFlowEntry : YamlScan Unit := do
  dropKey
  allowKey true
  reading YamlRead.skip
  push .flowEntry

private def startBlock (t : YamlToken) : YamlScan Unit := do
  let s ← get
  if !s.inFlow then
    if !s.keyAllowed then failure
    openBlock s.cursor.col none t

private def readBlockEntry : YamlScan Unit := do
  startBlock .blockSequence
  dropKey
  allowKey true
  reading YamlRead.skip
  push .blockEntry

private def readKeyMark : YamlScan Unit := do
  startBlock .blockMapping
  dropKey
  allowKey !(← get).inFlow
  reading YamlRead.skip
  push .key

private def readValueMark : YamlScan Unit := do
  if ← isPossible (← get).depth then
    let s ← get
    let k := s.currentKey
    set (s.insert k.number .key)
    openBlock k.col (some k.number) .blockMapping
    modify fun s => (s.forget k.number).setKey s.depth { k with possible := false }
    allowKey false
  else
    startBlock .blockMapping
    allowKey !(← get).inFlow
  reading YamlRead.skip
  push .value

private def readContent (r : YamlRead YamlToken) : YamlScan Unit := do
  saveKey
  allowKey false
  push (← reading r)

private def readPlain : YamlScan Unit := do
  saveKey
  allowKey false
  let s ← get
  let (text, crossed) ← reading (YamlRead.plainScalar s.inFlow s.indent)
  if crossed then allowKey true
  push (.scalar text false)

private def readBlock (literal : Bool) : YamlScan Unit := do
  dropKey
  allowKey true
  push (.scalar (← reading (YamlRead.blockScalar literal (← get).indent)) true)

def startsPlain (flow : Bool) (c : Char) (next : Option Char) : Bool :=
  !(isBlank c || isBreak c || YamlRead.isIndicator c) || (c == '-' && !atBlank next) ||
    (!flow && (c == '?' || c == ':') && !endsWord next)

private def readToken (c : Char) : YamlScan Unit := do
  let flow := (← get).inFlow
  let next ← reading (YamlRead.ahead 1)
  match c with
  | '[' => readFlowStart .flowSequence
  | '\x7b' => readFlowStart .flowMapping
  | ']' => readFlowEnd .flowSequenceEnd
  | '\x7d' => readFlowEnd .flowMappingEnd
  | ',' => readFlowEntry
  | '*' => readContent (.aliased <$> YamlRead.anchorName)
  | '&' => readContent (.anchor <$> YamlRead.anchorName)
  | '!' => readContent (.tag <$> YamlRead.tagWord)
  | '\'' | '"' => readContent ((.scalar · true) <$> YamlRead.quotedScalar c)
  | _ =>
    if c == '-' && endsWord next then readBlockEntry
    else if c == '?' && (flow || endsWord next) then readKeyMark
    else if c == ':' && (flow || endsWord next) then readValueMark
    else if !flow && (c == '|' || c == '>') then readBlock (c == '|')
    else if startsPlain flow c next then readPlain
    else failure

/-- Reads the next token, with the ends of the blocks in front of it. A comment behind it on its
line belongs to it; behind a dash, it belongs to what follows. -/
def readNext : YamlScan Unit := do
  toToken (← reading YamlRead.steps)
  endBlocks (← reading YamlRead.column)
  match ← reading YamlRead.peek with
  | none => readEnd
  | some c =>
    if c == '%' && (← get).cursor.col = 0 then readDirective
    else if ← reading (YamlRead.atMark '-') then readDocumentMark .documentStart
    else if ← reading (YamlRead.atMark '.') then readDocumentMark .documentEnd
    else
      readToken c
      if (← get).queue.getLast? ≠ some .blockEntry then reading YamlRead.skipLineComment

/-- Reads until the first token of the queue is known: two more follow it, and it does not start a
key unless that is marked. -/
def readAhead : (fuel : Nat) → YamlScan Unit
  | 0 => failure
  | fuel + 1 => do
    let s ← get
    let known ← (do
      if s.queue.length ≤ 2 then return false
      match s.levels.lookup s.taken with
      | none => return true
      | some level => return !(← isPossible level))
    if known then return
    readNext
    readAhead fuel

def peek : YamlScan YamlToken := do
  if !(← get).ready then
    readAhead ((← reading YamlRead.steps) + 3)
    modify fun s => { s with ready := true }
  match (← get).queue with
  | t :: _ => return t
  | [] => failure

def drop : YamlScan Unit := modify fun s =>
  let taken := s.taken + 1
  { s with
    queue := s.queue.tail, taken, ready := false
    levels := s.levels.filter (taken ≤ ·.1) }

end YamlScan

end RealScript
