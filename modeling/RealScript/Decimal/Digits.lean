import RealScript.Decimal.Nearest

/-! # Decimal digits of a float

A finite float is an integer times a power of two. Its digits are either the fewest that read back
as the same float, the nearest of those, or a given number of digits correctly rounded.
-/

namespace RealScript.Decimal

inductive Parts where
  | nan
  | infinite (negative : Bool)
  | finite (negative : Bool) (mantissa : Nat) (exponent : Int)
  deriving DecidableEq, Repr

def partsOfBits (bits : Nat) : Parts :=
  let negative := signBit ≤ bits
  let biased : Nat := bits / Nat.pow 2 52 % 2048
  let fraction : Nat := bits % Nat.pow 2 52
  if biased = 2047 then
    if fraction = 0 then .infinite negative else .nan
  else if biased = 0 then .finite negative fraction (-1074)
  else .finite negative (fraction + Nat.pow 2 52) ((biased : Int) - 1075)

def parts (x : Float) : Parts := partsOfBits x.toBits.toNat

structure Digits where
  digits : List Char
  exponent : Int
  deriving DecidableEq, Repr

def dropTrailingZeros (cs : List Char) : List Char :=
  (cs.reverse.dropWhile (· == '0')).reverse

def Digits.ofNat (n : Nat) (unit : Int) : Digits :=
  let cs := Nat.toDigits 10 n
  ⟨dropTrailingZeros cs, unit + (cs.length : Int) - 1⟩

structure Interval where
  low : Nat
  value : Nat
  high : Nat
  den : Nat
  closed : Bool
  deriving DecidableEq, Repr

def Interval.ofBinary (m : Nat) (e : Int) : Interval :=
  let below := if m = Nat.pow 2 52 ∧ -1074 < e then 1 else 2
  let num := fun n => (if 2 ≤ e then n * Nat.pow 2 (e - 2).toNat else n)
  { low := num (4 * m - below), value := num (4 * m), high := num (4 * m + 2),
    den := if 2 ≤ e then 1 else Nat.pow 2 (2 - e).toNat, closed := m % 2 = 0 }

def Interval.scale (i : Interval) (p : Int) : Interval :=
  if 0 ≤ p then { i with den := i.den * Nat.pow 10 p.toNat }
  else
    let f := Nat.pow 10 (-p).toNat
    { i with low := i.low * f, value := i.value * f, high := i.high * f }

def Interval.contains (i : Interval) (n : Nat) : Bool :=
  if i.closed then i.low ≤ n * i.den && n * i.den ≤ i.high
  else i.low < n * i.den && n * i.den < i.high

def Interval.pick (i : Interval) : Option Nat :=
  let n := i.value / i.den
  match i.contains n, i.contains (n + 1) with
  | true, true => some (roundDiv i.value i.den)
  | true, false => some n
  | false, true => some (n + 1)
  | false, false => none

def decimalExponent (num den : Nat) : Int :=
  let k : Int := ((Nat.toDigits 10 num).length : Int) - (Nat.toDigits 10 den).length
  let reached := if 0 ≤ k then den * Nat.pow 10 k.toNat ≤ num else den ≤ num * Nat.pow 10 (-k).toNat
  if reached then k else k - 1

def shortestDigits (m : Nat) (e : Int) : Digits :=
  let i := Interval.ofBinary m e
  let x := decimalExponent i.value i.den
  let grid := fun (n : Nat) =>
    let unit := x + 1 - n
    (i.scale unit).pick.map (Digits.ofNat · unit)
  ((List.range' 1 17).findSome? grid).getD ⟨[], 0⟩

def roundedDigits (n m : Nat) (e : Int) : Digits :=
  let i := Interval.ofBinary m e
  let unit := decimalExponent i.value i.den + 1 - n
  let s := i.scale unit
  Digits.ofNat (roundDiv s.value s.den) unit

end RealScript.Decimal
