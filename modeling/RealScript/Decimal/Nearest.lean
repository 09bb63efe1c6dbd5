/-! # Rounding a quotient

Exact quotients of natural numbers rounded to an integer and to the nearest float. A half goes to
the even neighbour in both.
-/

namespace RealScript.Decimal

def roundDiv (num den : Nat) : Nat :=
  let q := num / den
  let r := num % den
  if 2 * r < den then q
  else if den < 2 * r then q + 1
  else q + q % 2

def shiftBinary (num den : Nat) (e : Int) : Nat × Nat :=
  if 0 ≤ e then (num, den * Nat.pow 2 e.toNat) else (num * Nat.pow 2 (-e).toNat, den)

def binaryExponent (num den : Nat) : Int :=
  let k : Int := (num.log2 : Int) - den.log2
  let (a, b) := shiftBinary num den k
  if b ≤ a then k else k - 1

def infinityBits : Nat := 0x7FF * Nat.pow 2 52

def nearestBits (num den : Nat) : Nat :=
  if num = 0 then 0
  else
    let e := max (binaryExponent num den - 52) (-1074)
    let (a, b) := shiftBinary num den e
    min infinityBits ((e + 1074).toNat * Nat.pow 2 52 + roundDiv a b)

def signBit : Nat := Nat.pow 2 63

def ofBitsNat (negative : Bool) (bits : Nat) : Float :=
  Float.ofBits ((if negative then signBit + bits else bits).toUInt64)

end RealScript.Decimal
