import RealScript.Decimal.Digits

/-! # The text of a float

`general` and `sixDigits` write an exponent for values below `10 ^ -4` and from `10 ^ 6` on;
`positional` never does.
-/

namespace RealScript.Decimal

def zeros (n : Nat) : List Char := List.replicate n '0'

def Digits.positional (d : Digits) : List Char :=
  if d.exponent < 0 then '0' :: '.' :: zeros (-d.exponent - 1).toNat ++ d.digits
  else
    let whole := d.exponent.toNat + 1
    if d.digits.length ≤ whole then d.digits ++ zeros (whole - d.digits.length)
    else d.digits.take whole ++ '.' :: d.digits.drop whole

def Digits.exponential (d : Digits) : List Char :=
  let head := d.digits.take 1
  let tail := d.digits.drop 1
  let mark := if d.exponent < 0 then '-' else '+'
  let power := Nat.toDigits 10 d.exponent.natAbs
  head ++ (if tail.isEmpty then [] else '.' :: tail) ++ 'e' :: mark ::
    (if power.length < 2 then '0' :: power else power)

def Digits.general (d : Digits) : List Char :=
  if d.exponent < -4 || 6 ≤ d.exponent then d.exponential else d.positional

def textWith (write : Nat → Int → List Char) (x : Float) : String :=
  let signed := fun (negative : Bool) (cs : List Char) =>
    String.ofList (if negative then '-' :: cs else cs)
  match parts x with
  | .nan => "NaN"
  | .infinite negative => if negative then "-Inf" else "+Inf"
  | .finite negative m e => signed negative (if m = 0 then ['0'] else write m e)

def general (x : Float) : String := textWith (fun m e => (shortestDigits m e).general) x

def positional (x : Float) : String := textWith (fun m e => (shortestDigits m e).positional) x

def sixDigits (x : Float) : String := textWith (fun m e => (roundedDigits 6 m e).general) x

end RealScript.Decimal
