import RealScript.Decimal.Reader
import RealScript.Yaml.Cursor

/-! # The text of YAML scalars

A scalar is plain, quoted or a block of lines. Texts are gathered with their last character first.
-/

namespace RealScript

open Yaml

structure YamlGap where
  blanks : List Char := []
  crossed : Bool := false
  first : List Char := []
  more : List Char := []

namespace YamlGap

/-- The text that a gap stands for, last character first. One line end is a blank, and of several
the first is dropped, unless it is a separator. -/
def fold (g : YamlGap) : List Char :=
  if !g.crossed then g.blanks
  else if g.first != ['\n'] then g.more ++ g.first
  else if g.more.isEmpty then [' '] else g.more

end YamlGap

namespace YamlRead

def gap (least : Int) : (fuel : Nat) → YamlGap → YamlRead YamlGap
  | 0, g => return g
  | fuel + 1, g => do
    match ← peek with
    | none => return g
    | some c =>
      if isBreak c then
        let text ← lineEnd
        if g.crossed then gap least fuel { g with more := text ++ g.more }
        else gap least fuel { crossed := true, first := text }
      else if isBlank c then
        if g.crossed && c == '\t' && (← column) < least then failure
        skip
        gap least fuel (if g.crossed then g else { g with blanks := c :: g.blanks })
      else return g

/-! ### Plain scalars -/

private def openBrace : Char := '\x7b'

private def closeBrace : Char := '\x7d'

def isFlowMark (c : Char) : Bool := [',', '?', '[', ']', openBrace, closeBrace].contains c

def isIndicator (c : Char) : Bool :=
  ['-', '?', ':', ',', '[', ']', openBrace, closeBrace, '#', '&', '*', '!', '|', '>', '\'', '"',
    '%', '@', '\x60'].contains c

def takePlainWord (flow : Bool) (found : List Char) :
    List Char → YamlCursor → List Char × YamlCursor
  | [], s => (found, s)
  | c :: cs, s =>
    if isBlank c || isBreak c || (c == ':' && endsWord cs.head?) || (flow && isFlowMark c) then
      (found, s)
    else takePlainWord flow (c :: found) cs (s.pass c cs)

/-- A plain scalar, and whether a line end was passed behind it. Outside of brackets, a line that
goes on starts at the column `least` or behind it. -/
def plainText (flow : Bool) (least : Int) :
    (fuel : Nat) → (text : List Char) → YamlGap → YamlRead (List Char × Bool)
  | 0, text, g => return (text, g.crossed)
  | fuel + 1, text, g => do
    if (← atDocumentMark) || (← peek) = some '#' then return (text, g.crossed)
    let word ← modifyGet fun s => takePlainWord flow [] s.rest s
    let text := if word.isEmpty then text else word ++ (g.fold ++ text)
    let g := if word.isEmpty then g else {}
    if !(atBlank (← peek) || atBreak (← peek)) then return (text, g.crossed)
    let g ← gap least (← steps) {}
    if !flow && (← column) < least then return (text, g.crossed)
    plainText flow least fuel text g

def plainScalar (flow : Bool) (indent : Int) : YamlRead (String × Bool) := do
  let (text, crossed) ← plainText flow (indent + 1) (← steps) [] {}
  return (String.ofList text.reverse, crossed)

/-! ### Quoted scalars -/

def escapedChar? (c : Char) : Option Char :=
  match c with
  | '0' => some (Char.ofNat 0)
  | 'a' => some (Char.ofNat 7)
  | 'b' => some (Char.ofNat 8)
  | 't' | '\t' => some '\t'
  | 'n' => some '\n'
  | 'v' => some (Char.ofNat 11)
  | 'f' => some (Char.ofNat 12)
  | 'r' => some '\r'
  | 'e' => some (Char.ofNat 27)
  | ' ' | '"' | '\'' | '\\' => some c
  | 'N' => some (Char.ofNat 0x85)
  | '_' => some (Char.ofNat 0xA0)
  | 'L' => some (Char.ofNat 0x2028)
  | 'P' => some (Char.ofNat 0x2029)
  | _ => none

def escapeWidth? (c : Char) : Option Nat :=
  match c with
  | 'x' => some 2
  | 'u' => some 4
  | 'U' => some 8
  | _ => none

def hexValue : (width value : Nat) → YamlRead Nat
  | 0, value => return value
  | width + 1, value => do
    match (← peek).bind Decimal.digitValue with
    | some d =>
      skip
      hexValue width (value * 16 + d)
    | none => failure

def escape : YamlRead Char := do
  let some c ← peek | failure
  skip
  match escapedChar? c, escapeWidth? c with
  | some c, _ => return c
  | none, some width =>
    let n ← hexValue width 0
    if n.isValidChar then return Char.ofNat n else failure
  | none, none => failure

def quotedWord (quote : Char) : (fuel : Nat) → (text : List Char) → YamlRead (List Char × Bool)
  | 0, text => return (text, false)
  | fuel + 1, text => do
    match ← peek with
    | none => return (text, false)
    | some c =>
      if isBlank c || isBreak c then return (text, false)
      else if c == quote then
        if quote == '\'' && (← ahead 1) = some '\'' then
          skip
          skip
          quotedWord quote fuel (c :: text)
        else return (text, false)
      else if quote == '"' && c == '\\' then
        skip
        if atBreak (← peek) then
          let _ ← lineEnd
          return (text, true)
        else
          quotedWord quote fuel ((← escape) :: text)
      else
        skip
        quotedWord quote fuel (c :: text)

def quotedText (quote : Char) : (fuel : Nat) → (text : List Char) → YamlRead (List Char)
  | 0, _ => failure
  | fuel + 1, text => do
    if (← atDocumentMark) || (← peek).isNone then failure
    let (text, escaped) ← quotedWord quote (← steps) text
    if (← peek) = some quote then
      skip
      return text
    else
      let g ← gap 0 (← steps) { crossed := escaped }
      quotedText quote fuel (g.fold ++ text)

def quotedScalar (quote : Char) : YamlRead String := do
  skip
  return String.ofList (← quotedText quote (← steps) []).reverse

/-! ### Blocks of lines -/

inductive YamlChomp where
  | strip | clip | keep
  deriving DecidableEq, Repr

private def chompMark? : YamlRead (Option YamlChomp) := do
  match ← peek with
  | some '+' => skip; return some .keep
  | some '-' => skip; return some .strip
  | _ => return none

private def indentDigit : YamlRead Nat := do
  match ← peek with
  | some c =>
    if c == '0' then failure
    else if c.isDigit then
      skip
      return c.toNat - 48
    else return 0
  | none => return 0

def blockHead : YamlRead (YamlChomp × Nat) := do
  let (chomp, digit) ← (do
    match ← chompMark? with
    | some chomp => return (chomp, ← indentDigit)
    | none =>
      let digit ← indentDigit
      let chomp ← if digit = 0 then pure none else chompMark?
      return (chomp.getD .clip, digit))
  skipBlanks
  if (← peek) = some '#' then skipComment
  if !endsLine (← peek) then failure
  let _ ← lineEnd
  return (chomp, digit)

/-- Reads empty lines and the indentation of the next line. An indentation that is not known yet is
zero, and then `widest` becomes the widest that was seen. -/
def blockBreaks (indent : Nat) :
    (fuel : Nat) → (widest : Nat) → (found : List Char) → YamlRead (Nat × List Char)
  | 0, widest, found => return (widest, found)
  | fuel + 1, widest, found => do
    let s ← get
    let inside := indent = 0 || s.col < indent
    match ← peek with
    | some ' ' =>
      if inside then
        skip
        blockBreaks indent fuel widest found
      else return (widest, found)
    | c =>
      if inside && c = some '\t' then failure
      let widest := max widest s.col
      if atBreak c then
        let text ← lineEnd
        blockBreaks indent fuel widest (text ++ found)
      else return (widest, found)

structure YamlLines where
  text : List Char := []
  last : List Char := []
  more : List Char := []

/-- Joins the next line of a block to those before it. The line end between them is folded if the
block asks for it and no blank opens either line. -/
def YamlLines.join (ls : YamlLines) (fold : Bool) : List Char :=
  if fold && ls.last == ['\n'] then
    if ls.more.isEmpty then ' ' :: ls.text else ls.more ++ ls.text
  else ls.more ++ (ls.last ++ ls.text)

def blockLines (literal : Bool) (indent : Nat) :
    (fuel : Nat) → (blankBefore : Bool) → YamlLines → YamlRead YamlLines
  | 0, _, ls => return ls
  | fuel + 1, blankBefore, ls => do
    let next ← peek
    if (← get).col = indent && next.isSome then
      let blank := atBlank next
      let text := ls.join (!literal && !blankBefore && !blank)
      let line ← takeReversed fun c => !isBreak c
      let last ← lineEnd
      let (_, more) ← blockBreaks indent (← steps) 0 []
      blockLines literal indent fuel blank { text := line ++ text, last, more }
    else return ls

def blockScalar (literal : Bool) (indent : Int) : YamlRead String := do
  skip
  let (chomp, digit) ← blockHead
  let known := if digit = 0 then 0 else digit + indent.toNat
  let (widest, more) ← blockBreaks known (← steps) 0 []
  let inner := if known = 0 then max (max widest (indent + 1).toNat) 1 else known
  let ls ← blockLines literal inner (← steps) false { more }
  let text := match chomp with
    | .strip => ls.text
    | .clip => ls.last ++ ls.text
    | .keep => ls.more ++ (ls.last ++ ls.text)
  return String.ofList text.reverse

end YamlRead

end RealScript
