import RealScript.Decimal.Digits

/-! # Reading numbers

A number is written in decimal, or in hexadecimal with a binary exponent. Underscores may stand
between digits. The names of infinity and of the undefined value are read in any case of letters.
-/

namespace RealScript.Decimal

def digitValue (c : Char) : Option Nat :=
  if c.isDigit then some (c.toNat - 48)
  else if 'a' ≤ c && c ≤ 'f' then some (c.toNat - 87)
  else if 'A' ≤ c && c ≤ 'F' then some (c.toNat - 55)
  else none

def digitBelow (base : Nat) (c : Char) : Option Nat :=
  (digitValue c).filter (· < base)

/-- What has been read of a mantissa: its digits as a number, how many stand after the point, and
whether a point and a digit were seen. -/
structure Mantissa where
  value : Nat := 0
  places : Nat := 0
  point : Bool := false
  digits : Bool := false
  deriving DecidableEq, Repr

def readMantissa (base : Nat) : Mantissa → List Char → Mantissa × List Char
  | m, [] => (m, [])
  | m, c :: cs =>
    if c == '_' then readMantissa base m cs
    else if c == '.' then
      if m.point then (m, c :: cs) else readMantissa base { m with point := true } cs
    else match digitBelow base c with
      | some d =>
        readMantissa base
          { m with value := m.value * base + d, digits := true,
                   places := if m.point then m.places + 1 else m.places } cs
      | none => (m, c :: cs)

/-- Reads an exponent's digits and underscores. Digits after the fifth of a large one do not count:
the value is out of every range by then. -/
def readExponentDigits : Nat → List Char → Nat × List Char
  | e, [] => (e, [])
  | e, c :: cs =>
    if c == '_' then readExponentDigits e cs
    else if c.isDigit then
      readExponentDigits (if e < 10000 then e * 10 + (c.toNat - 48) else e) cs
    else (e, c :: cs)

def readExponent (cs : List Char) : Option (Int × List Char) :=
  let (negative, ds) := match cs with
    | '-' :: ds => (true, ds)
    | '+' :: ds => (false, ds)
    | ds => (false, ds)
  match ds with
  | d :: _ =>
    if d.isDigit then
      let (e, rest) := readExponentDigits 0 ds
      some (if negative then -(e : Int) else e, rest)
    else none
  | [] => none

inductive Seen where
  | start | digit | underscore | other
  deriving DecidableEq, Repr

def underscoresSeparate (hex : Bool) : Seen → List Char → Bool
  | seen, [] => seen ≠ .underscore
  | seen, c :: cs =>
    if c.isDigit || (hex && (digitValue c).isSome) then underscoresSeparate hex .digit cs
    else if c == '_' then seen = .digit && underscoresSeparate hex .underscore cs
    else seen ≠ .underscore && underscoresSeparate hex .other cs

def scaled? (base : Nat) (m : Nat) (e : Int) : Option Nat :=
  let bits :=
    if m = 0 then 0
    else if 0 ≤ e then nearestBits (m * Nat.pow base e.toNat) 1
    else nearestBits m (Nat.pow base (-e).toNat)
  if bits < infinityBits then some bits else none

def readDecimal (cs : List Char) : Option Nat :=
  match readMantissa 10 {} cs with
  | (m, rest) =>
    if !m.digits || !underscoresSeparate false .start cs then none
    else match rest with
      | [] => scaled? 10 m.value (-(m.places : Int))
      | c :: rest =>
        if c == 'e' || c == 'E' then
          match readExponent rest with
          | some (e, []) => scaled? 10 m.value (e - m.places)
          | _ => none
        else none

def readHexadecimal (cs : List Char) : Option Nat :=
  match readMantissa 16 {} cs with
  | (m, c :: rest) =>
    if !m.digits || !underscoresSeparate true .digit cs then none
    else if c == 'p' || c == 'P' then
      match readExponent rest with
      | some (e, []) => scaled? 2 m.value (e - 4 * m.places)
      | _ => none
    else none
  | (_, []) => none

def readMagnitude (cs : List Char) : Option Nat :=
  match cs with
  | '0' :: x :: c :: rest =>
    if x == 'x' || x == 'X' then readHexadecimal (c :: rest) else readDecimal cs
  | _ => readDecimal cs

def lowered (cs : List Char) : List Char := cs.map Char.toLower

def isInfinity (cs : List Char) : Bool :=
  lowered cs == "inf".toList || lowered cs == "infinity".toList

def undefinedBits : Nat := 0x7FF8000000000001

def readChars (cs : List Char) : Option Float :=
  let unsigned := fun (negative : Bool) (ds : List Char) =>
    if isInfinity ds then some (ofBitsNat negative infinityBits)
    else (readMagnitude ds).map (ofBitsNat negative)
  match cs with
  | '+' :: ds => unsigned false ds
  | '-' :: ds => unsigned true ds
  | ds => if lowered ds == "nan".toList then some (ofBitsNat false undefinedBits)
          else unsigned false ds

def read? (s : String) : Option Float := readChars s.toList

end RealScript.Decimal
