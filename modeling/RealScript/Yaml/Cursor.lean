/-! # Reading the characters of a YAML text

A cursor stands in front of the characters that are still to be read and knows its line and column.
Five characters end a line; a carriage return and a line feed together end one line.
-/

namespace RealScript

namespace Yaml

private def nextLine : Char := Char.ofNat 0x85

private def lineSeparator : Char := Char.ofNat 0x2028

private def paragraphSeparator : Char := Char.ofNat 0x2029

def byteOrderMark : Char := Char.ofNat 0xFEFF

def isBreak (c : Char) : Bool :=
  c == '\n' || c == '\r' || c == nextLine || c == lineSeparator || c == paragraphSeparator

def breakText (c : Char) : Char :=
  if c == lineSeparator || c == paragraphSeparator then c else '\n'

def isBlank (c : Char) : Bool := c == ' ' || c == '\t'

def atBreak (c : Option Char) : Bool := c.any isBreak

def atBlank (c : Option Char) : Bool := c.any isBlank

def endsLine (c : Option Char) : Bool := c.all isBreak

def endsWord (c : Option Char) : Bool := c.all fun c => isBlank c || isBreak c

def isNameChar (c : Char) : Bool := c.isAlphanum || c == '_' || c == '-'

def isAllowed (c : Char) : Bool :=
  let n := c.toNat
  n == 0x09 || n == 0x0A || n == 0x0D || (0x20 ≤ n && n ≤ 0x7E) || n == 0x85 ||
    (0xA0 ≤ n && n ≤ 0xD7FF) || (0xE000 ≤ n && n ≤ 0xFFFD) || 0x10000 ≤ n

def blockSize : Nat := 512

/-- The characters in front of the first block that holds one which is not allowed, and whether
there is no such block. Characters are not divided between blocks; `room` is what is left of the
current one. -/
def readable (room : Nat) (block done : List Char) : List Char → List Char × Bool
  | [] => ((block ++ done).reverse, true)
  | c :: cs =>
    if c.utf8Size ≤ room then
      if isAllowed c then readable (room - c.utf8Size) (c :: block) done cs
      else (done.reverse, false)
    else if isAllowed c then readable (blockSize - c.utf8Size) [c] (block ++ done) cs
    else ((block ++ done).reverse, false)

end Yaml

open Yaml

structure YamlCursor where
  rest : List Char
  left : Nat
  whole : Bool
  index : Nat := 0
  line : Nat := 0
  col : Nat := 0
  newlines : Nat := 0

namespace YamlCursor

def ofString (s : String) : YamlCursor :=
  let cs := if s = "" then ['\n'] else s.toList
  let (room, cs) := match cs with
    | c :: rest => if c == byteOrderMark then (blockSize - c.utf8Size, rest) else (blockSize, cs)
    | [] => (blockSize, cs)
  let (rest, whole) := readable room [] [] cs
  { rest, left := rest.length, whole }

def pass (s : YamlCursor) (c : Char) (rest : List Char) : YamlCursor :=
  { s with
    rest, left := s.left - 1, index := s.index + 1, col := s.col + 1
    newlines := if isBlank c then s.newlines else 0 }

def passBreak (s : YamlCursor) (width : Nat) (rest : List Char) : YamlCursor :=
  { s with
    rest, left := s.left - width, index := s.index + width, line := s.line + 1, col := 0
    newlines := s.newlines + 1 }

def takeWhile (p : Char → Bool) (found : List Char) :
    List Char → YamlCursor → List Char × YamlCursor
  | [], s => (found, s)
  | c :: cs, s => if p c then takeWhile p (c :: found) cs (s.pass c cs) else (found, s)

end YamlCursor

abbrev YamlRead := StateT YamlCursor Option

namespace YamlRead

def ahead (n : Nat) : YamlRead (Option Char) := do
  let s ← get
  match s.rest[n]? with
  | some c => return some c
  | none => if s.whole then return none else failure

def peek : YamlRead (Option Char) := ahead 0

def column : YamlRead Int := return (← get).col

def steps : YamlRead Nat := return (← get).left + 1

def skip : YamlRead Unit := modify fun s =>
  match s.rest with
  | c :: cs => s.pass c cs
  | [] => s

def lineEnd : YamlRead (List Char) := modifyGet fun s =>
  match s.rest with
  | '\r' :: '\n' :: cs => (['\n'], s.passBreak 2 cs)
  | c :: cs => if isBreak c then ([breakText c], s.passBreak 1 cs) else ([], s)
  | [] => ([], s)

def takeReversed (p : Char → Bool) : YamlRead (List Char) := do
  let found ← modifyGet fun s => s.takeWhile p [] s.rest
  let _ ← peek
  return found

def take (p : Char → Bool) : YamlRead (List Char) := return (← takeReversed p).reverse

def skipWhile (p : Char → Bool) : YamlRead Unit := discard (takeReversed p)

def skipBlanks : YamlRead Unit := skipWhile isBlank

def atMark (c : Char) : YamlRead Bool := do
  let s ← get
  return s.col = 0 && [c, c, c].isPrefixOf s.rest && endsWord s.rest[3]?

def atDocumentMark : YamlRead Bool := return (← atMark '-') || (← atMark '.')

/-! ### Comments -/

def skipComment : YamlRead Unit := skipWhile fun c => !isBreak c

private def commentReach : Nat := 512

def commentOffset? (p : Char → Bool) (limit : Nat) (n : Nat) : List Char → Option Nat
  | [] => none
  | c :: cs =>
    if limit ≤ n then none
    else if c == '#' then some n
    else if p c then commentOffset? p limit (n + 1) cs
    else none

def passTo (target : Nat) : (fuel : Nat) → YamlRead Unit
  | 0 => return
  | fuel + 1 => do
    let s ← get
    if target ≤ s.index then return
    else if atBreak s.rest.head? then
      let _ ← lineEnd
      passTo target fuel
    else
      skip
      passTo target fuel

/-- Skips a comment and the comments on the lines below it. Only line feeds, carriage returns and
blanks may stand between them. -/
def skipComments : (fuel : Nat) → YamlRead Unit
  | 0 => return
  | fuel + 1 => do
    skipComment
    let s ← get
    match s.rest with
    | [] => return
    | c :: cs =>
      let isGap (c : Char) : Bool := isBlank c || c == '\n' || c == '\r'
      if isGap c then
        match commentOffset? isGap commentReach 1 cs with
        | some n =>
          passTo (s.index + n) (n + 1)
          skipComments fuel
        | none => return
      else return

def skipLineComment : YamlRead Unit := do
  let s ← get
  if s.newlines = 0 then
    match commentOffset? isBlank commentReach 0 s.rest with
    | some n =>
      passTo (s.index + n) (n + 1)
      skipComment
    | none => return

end YamlRead

end RealScript
