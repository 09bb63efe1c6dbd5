import RealScript.Decimal.Reader
import RealScript.Diagnostic
import RealScript.Text.Blank

/-! # Scanning tokens

A cursor stands in front of the characters that are still to be read. Each step passes over blanks
and comments and reads one token, or fails and goes on behind what it could not read.
-/

namespace RealScript

/-- The rest of the source, and the failure that waits behind it if it cannot be read to its end. -/
structure Cursor where
  rest : List Char
  pos : Position := {}
  failure : Option String := none
  deriving Repr

def isLetter (c : Char) : Bool := c == '_' || c.isAlpha

def isWordChar (c : Char) : Bool := isLetter c || c.isDigit

/-- Passes over blanks and comments. A comment runs to the end of its line. -/
def skipBlank : (inComment : Bool) → Position → List Char → Position × List Char
  | _, p, [] => (p, [])
  | true, p, c :: cs => skipBlank (c ≠ '\n') (p.step c) cs
  | false, p, c :: cs =>
    if Text.isBlank c then skipBlank false (p.step c) cs
    else if c = '#' then skipBlank true (p.step c) cs
    else (p, c :: cs)

def splitNumber : (seenPoint : Bool) → List Char → List Char × List Char
  | _, [] => ([], [])
  | seenPoint, c :: cs =>
    if c.isDigit then
      let (text, rest) := splitNumber seenPoint cs
      (c :: text, rest)
    else if c = '.' ∧ ¬ seenPoint then
      let (text, rest) := splitNumber true cs
      (c :: text, rest)
    else ([], c :: cs)

/-- The operator or mark at the front, the longest first, its characters and those behind it. -/
def symbolAt (c : Char) (cs : List Char) : Option (Lexeme × List Char × List Char) :=
  let one := match Operator.find? c.toString with
    | some op => some (.operator op, [c], cs)
    | none => (Mark.find? c).map fun m => (.mark m, [c], cs)
  match cs with
  | d :: rest =>
    match Operator.find? (String.ofList [c, d]) with
    | some op => some (.operator op, [c, d], rest)
    | none => one
  | [] => one

namespace Cursor

def ofString (s : String) : Cursor := { rest := s.toList }

/-- The token that starts with `c`, in front of `cs`: what it is, its characters and those behind
it. -/
def tokenAt (c : Char) (cs : List Char) : Except Cause Lexeme × List Char × List Char :=
  if isLetter c then
    let word := c :: cs.takeWhile isWordChar
    (.ok (Lexeme.ofWord (String.ofList word)), word, cs.dropWhile isWordChar)
  else if c.isDigit then
    let (digits, rest) := splitNumber false (c :: cs)
    let text := String.ofList digits
    match Decimal.read? text with
    | some x => (.ok (.number text x), digits, rest)
    | none => (.error (.malformedNumber text), digits, rest)
  else match symbolAt c cs with
    | some (l, taken, rest) => (.ok l, taken, rest)
    | none => (.error (.unexpectedCharacter c), [c], cs)

/-- Reads one token. At the end of the input every further step gives the end again. -/
def next (cur : Cursor) : Except Diagnostic Token × Cursor :=
  let (start, cs) := skipBlank false cur.pos cur.rest
  match cs with
  | [] =>
    let cur := { cur with rest := [], pos := start }
    match cur.failure with
    | some text => (.error ⟨start, .unreadable text⟩, cur)
    | none => (.ok ⟨.endOfInput, start⟩, cur)
  | c :: cs =>
    let (result, taken, rest) := tokenAt c cs
    let cur := { cur with rest := rest, pos := start.after taken }
    match result with
    | .ok l => (.ok ⟨l, start⟩, cur)
    | .error cause => (.error ⟨start, cause⟩, cur)

end Cursor

/-- The tokens up to the end of the input, which is one of them, or up to the first failure. -/
structure Scan where
  tokens : List Token
  failure : Option Diagnostic := none
  deriving Repr

namespace Scan

def run : (fuel : Nat) → Cursor → Scan
  | 0, _ => { tokens := [] }
  | fuel + 1, cur =>
    match cur.next with
    | (.error d, _) => { tokens := [], failure := some d }
    | (.ok t, cur) =>
      if t.kind = .endOfInput then { tokens := [t] }
      else
        let s := run fuel cur
        { s with tokens := t :: s.tokens }

/-- Scans to the end. Each token takes a character, so the length of the source bounds the steps. -/
def ofCursor (cur : Cursor) : Scan := run (cur.rest.length + 1) cur

end Scan

def scan (cur : Cursor) : Except Diagnostic (List Token) :=
  let s := Scan.ofCursor cur
  match s.failure with
  | some d => .error d
  | none => .ok s.tokens

end RealScript
