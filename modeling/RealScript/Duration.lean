import RealScript.Decimal.Layout

/-! # Durations

Lengths of time in nanoseconds, written with units: `1h2m3.5s`, `250µs`.
-/

namespace RealScript

structure Duration where
  ns : Int := 0
  deriving DecidableEq, Repr, Inhabited

namespace Duration

private def micro : String := String.ofList [Char.ofNat 0xB5, 's']

def fraction (n places : Nat) : String :=
  let whole := n / Nat.pow 10 places
  let rest := n % Nat.pow 10 places
  let digits := Nat.toDigits 10 rest
  let padded := Decimal.zeros (places - digits.length) ++ digits
  if rest = 0 then toString whole
  else toString whole ++ "." ++ String.ofList (Decimal.dropTrailingZeros padded)

private def magnitude (n : Nat) : String :=
  if n = 0 then "0s"
  else if n < 1000 then toString n ++ "ns"
  else if n < 1000000 then fraction n 3 ++ micro
  else if n < 1000000000 then fraction n 6 ++ "ms"
  else
    let minutes := n / 60000000000
    let seconds := fraction (n % 60000000000) 9 ++ "s"
    if minutes = 0 then seconds
    else if minutes < 60 then toString minutes ++ "m" ++ seconds
    else toString (minutes / 60) ++ "h" ++ toString (minutes % 60) ++ "m" ++ seconds

def text (d : Duration) : String :=
  if d.ns < 0 then "-" ++ magnitude d.ns.natAbs else magnitude d.ns.natAbs

def unit? (name : String) : Option Nat :=
  if name == "ns" then some 1
  else if name == "us" || name == micro || name == String.ofList [Char.ofNat 0x3BC, 's'] then
    some 1000
  else if name == "ms" then some 1000000
  else if name == "s" then some 1000000000
  else if name == "m" then some 60000000000
  else if name == "h" then some 3600000000000
  else none

private def limit : Nat := Nat.pow 2 63

private def isNumeral (c : Char) : Bool := c == '.' || c.isDigit

/-- The digits behind a point as a number, and ten to the power of their count. Digits that do not
fit into 63 bits are dropped. -/
def decimals : (value : Nat) → (scale : Float) → List Char → Nat × Float
  | value, scale, [] => (value, scale)
  | value, scale, c :: cs =>
    let next := value * 10 + (c.toNat - 48)
    if (limit - 1) / 10 < value || limit < next then decimals value scale []
    else decimals next (scale * 10) cs

private def natOfDigits (cs : List Char) : Nat := cs.foldl (fun n c => n * 10 + (c.toNat - 48)) 0

def term? (cs : List Char) : Option (Nat × List Char) := do
  let whole := cs.takeWhile Char.isDigit
  let rest := cs.dropWhile Char.isDigit
  let (part, rest) := match rest with
    | '.' :: rest => (rest.takeWhile Char.isDigit, rest.dropWhile Char.isDigit)
    | rest => ([], rest)
  guard (!(whole.isEmpty && part.isEmpty))
  let name := rest.takeWhile (!isNumeral ·)
  let unit ← unit? (String.ofList name)
  let n := natOfDigits whole
  guard (n ≤ limit / unit)
  let (f, scale) := decimals 0 1 part
  let extra := if f = 0 then 0 else (f.toFloat * (unit.toFloat / scale)).toUInt64.toNat
  guard (n * unit + extra ≤ limit)
  return (n * unit + extra, rest.dropWhile (!isNumeral ·))

def terms? : (fuel : Nat) → (sum : Nat) → List Char → Option Nat
  | _, sum, [] => some sum
  | 0, _, _ => none
  | fuel + 1, sum, cs => do
    let (n, rest) ← term? cs
    guard (sum + n ≤ limit)
    terms? fuel (sum + n) rest

def read? (s : String) : Option Duration :=
  let (negative, cs) := match s.toList with
    | '-' :: cs => (true, cs)
    | '+' :: cs => (false, cs)
    | cs => (false, cs)
  if cs == ['0'] then some {}
  else if cs.isEmpty then none
  else do
    let n ← terms? cs.length 0 cs
    if negative then return ⟨-(n : Int)⟩
    guard (n < limit)
    return ⟨n⟩

end Duration

end RealScript
