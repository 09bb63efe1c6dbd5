import RealScript.Decimal.Reader

/-! # Reading integers

Integers of 64 bits in decimal, or in another base behind its mark. A leading zero marks base eight.
-/

namespace RealScript.Integer

inductive ReadError where
  | malformed
  | outOfRange
  deriving DecidableEq, Repr

def base (cs : List Char) : Nat × List Char :=
  match cs with
  | '0' :: m :: c :: rest =>
    if m == 'x' || m == 'X' then (16, c :: rest)
    else if m == 'o' || m == 'O' then (8, c :: rest)
    else if m == 'b' || m == 'B' then (2, c :: rest)
    else (8, m :: c :: rest)
  | '0' :: rest => (8, rest)
  | _ => (10, cs)

def digits (base : Nat) : (value : Nat) → List Char → Except ReadError Nat
  | value, [] => .ok value
  | value, c :: cs =>
    if c == '_' then digits base value cs
    else match Decimal.digitBelow base c with
      | none => .error .malformed
      | some d =>
        let next := value * base + d
        if next < Nat.pow 2 64 then digits base next cs else .error .outOfRange

def separated (cs : List Char) : Bool :=
  match cs with
  | '0' :: m :: rest =>
    if m == 'x' || m == 'X' then Decimal.underscoresSeparate true .digit rest
    else if m == 'o' || m == 'O' || m == 'b' || m == 'B' then
      Decimal.underscoresSeparate false .digit rest
    else Decimal.underscoresSeparate false .start cs
  | _ => Decimal.underscoresSeparate false .start cs

def magnitude (cs : List Char) : Except ReadError Nat := do
  if cs.isEmpty then throw .malformed
  let (b, ds) := base cs
  let n ← digits b 0 ds
  if separated cs then return n else throw .malformed

def signed (magnitude : List Char → Except ReadError Nat) (cs : List Char) :
    Except ReadError Int := do
  let (negative, cs) := match cs with
    | '-' :: cs => (true, cs)
    | '+' :: cs => (false, cs)
    | cs => (false, cs)
  let n ← magnitude cs
  if negative then
    if n ≤ Nat.pow 2 63 then return -(n : Int) else throw .outOfRange
  else if n < Nat.pow 2 63 then return n
  else throw .outOfRange

def readChars (cs : List Char) : Except ReadError Int := signed magnitude cs

def read (s : String) : Except ReadError Int := readChars s.toList

def magnitudeIn (b : Nat) (cs : List Char) : Except ReadError Nat :=
  if cs.isEmpty then throw .malformed else digits b 0 cs

def readBase (b : Nat) (cs : List Char) : Except ReadError Int :=
  match signed (magnitudeIn b) cs with
  | .ok n => .ok n
  | .error _ => (magnitudeIn b cs).map Int.ofNat

end RealScript.Integer
