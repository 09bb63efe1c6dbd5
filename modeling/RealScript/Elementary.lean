/-! # Elementary functions

The functions that host declarations give access to, on doubles. Sine, cosine and tangent take the
argument apart into octants of the circle and a rest, and evaluate a polynomial at the rest. Powers
are computed by repeated squaring, with the exponent of two kept apart from the fraction, so that
they overflow and underflow only in the end.
-/

namespace RealScript.Elementary

def infinity : Float := 1 / 0

def nan : Float := 0 / 0

def pi : Float := 3.14159265358979323846264338327950288

def quarterPi : Float := 0.78539816339744830961566084581987572

def isNegative (x : Float) : Bool := x.toBits >>> 63 == 1

def withSign (x y : Float) : Float := if isNegative y then -x.abs else x.abs

def polynomial (coefficients : List Float) (x : Float) : Float :=
  coefficients.foldl (fun acc c => acc * x + c) 0

/-! ### Octants -/

def fourOverPiDigits : Nat :=
  0x145f306dc9c882a53f84eafa3ea69bb81b6c52b3278872083fca2c757bd778ac36e48dc74849ba5c00c925dd413a32439fc3bd63962534e7dd1046bea5d768909d338e04d68befc827323ac7306a673e93908bf177bf250763ff12fffbc0b301fde5e2316b414da3eda6cfd9e4f96136e9e8c7ecd3cbfd45aea4f758fd7cbe2f67a0e73ef14a525d4d7f6bf623f1aba10ac06608df8f6d757

structure Angle where
  octant : Nat
  rest : Float
  deriving Repr

def largeArgument : Float := 536870912

def Angle.ofLarge (x : Float) : Angle :=
  let bits := x.toBits.toNat
  let significand := bits % 1 <<< 52 + 1 <<< 52
  let offset := bits >>> 52 - 1014
  let digits := fourOverPiDigits >>> (1088 - offset) % 1 <<< 192
  let product := (digits * significand) >>> 64 % 1 <<< 128
  let low := product % 1 <<< 64
  let octant := product >>> 125
  let fraction := product >>> 61 % 1 <<< 64
  let shift := 64 - Nat.log2 fraction
  let mantissa := (fraction <<< shift % 1 <<< 64 ||| low >>> (64 - shift)) >>> 12
  let z := Float.ofBits ((1023 - shift) <<< 52 + mantissa).toUInt64
  if octant % 2 = 1 then ⟨(octant + 1) % 8, (z - 1) * quarterPi⟩ else ⟨octant, z * quarterPi⟩

def Angle.ofSmall (x : Float) : Angle :=
  let octant := (x * 1.27323954473516268615107010698140931).toUInt64.toNat
  let octant := octant + octant % 2
  let y := octant.toFloat
  let rest := ((x - y * 7.85398125648498535156e-1) - y * 3.77489470793079817668e-8) -
    y * 2.69515142907905952645e-15
  ⟨octant % 8, rest⟩

def Angle.ofArgument (x : Float) : Angle :=
  if x ≥ largeArgument then .ofLarge x else .ofSmall x

def sineNearZero (z : Float) : Float :=
  let zz := z * z
  z + z * zz * polynomial [1.58962301576546568060e-10, -2.50507477628578072866e-8,
    2.75573136213857245213e-6, -1.98412698295895385996e-4, 8.33333333332211858878e-3,
    -1.66666666666666307295e-1] zz

def cosineNearZero (z : Float) : Float :=
  let zz := z * z
  1 - 0.5 * zz + zz * zz * polynomial [-1.13585365213876817300e-11, 2.08757008419747316778e-9,
    -2.75573141792967388112e-7, 2.48015872888517045348e-5, -1.38888888888730564116e-3,
    4.16666666666665929218e-2] zz

def tangentNearZero (z : Float) : Float :=
  let zz := z * z
  if zz > 1e-14 then
    z + z * (zz * polynomial [-1.30936939181383734205e4, 1.15351664838587416140e6,
        -1.79565251976484877988e7] zz /
      polynomial [1, 1.36812963470692954678e4, -1.32089234440210967447e6,
        2.50083801823357915839e7, -5.38695755929454629881e7] zz)
  else z

private def negateIf (b : Bool) (x : Float) : Float := if b then -x else x

def sin (x : Float) : Float :=
  if x == 0 || x.isNaN then x
  else if x.isInf then nan
  else
    let a := Angle.ofArgument x.abs
    let y := if a.octant % 4 = 2 then cosineNearZero a.rest else sineNearZero a.rest
    negateIf ((x < 0) != (4 ≤ a.octant)) y

def cos (x : Float) : Float :=
  if x.isNaN then x
  else if x.isInf then nan
  else
    let a := Angle.ofArgument x.abs
    let y := if a.octant % 4 = 2 then sineNearZero a.rest else cosineNearZero a.rest
    negateIf ((4 ≤ a.octant) != (2 ≤ a.octant % 4)) y

def tan (x : Float) : Float :=
  if x == 0 || x.isNaN then x
  else if x.isInf then nan
  else
    let a := Angle.ofArgument x.abs
    let y := tangentNearZero a.rest
    negateIf (x < 0) (if a.octant % 4 = 2 then -1 / y else y)

def atan2 (y x : Float) : Float :=
  if x.isNaN || y.isNaN then nan
  else if y == 0 then if x ≥ 0 && !isNegative x then withSign 0 y else withSign pi y
  else if x == 0 then withSign (pi / 2) y
  else if x.isInf then
    if y.isInf then withSign (if x > 0 then quarterPi else 3 * pi / 4) y
    else withSign (if x > 0 then 0 else pi) y
  else if y.isInf then withSign (pi / 2) y
  else
    let q := (y / x).atan
    if x < 0 then if q ≤ 0 then q + pi else q - pi else q

/-! ### Exponentials -/

def log2e : Float := 1.44269504088896340735992468100189214

def exp (x : Float) : Float := if x * log2e ≥ 1023.5 then infinity else x.exp

def ln2 : Float := 0.69314718055994530941723212145817657

def leastNormal : Float := Float.ofBits 0x0010000000000000

/-- The natural logarithm. The digits of a number below the least normal one count behind a leading
one, as those of all others do. -/
def log (x : Float) : Float :=
  if 0 < x && x < leastNormal then Float.log (Float.ofBits (x.toBits ||| 0x0010000000000000)) - ln2
  else x.log

def isOddInteger (x : Float) : Bool :=
  x.abs < 9007199254740992 && x.floor == x && x.abs.toUInt64 % 2 == 1

def exponentLimit : Int := 4096

def powNat : (fuel n : Nat) → (x : Float) → (xe : Int) → (a : Float) → (ae : Int) → Float × Int
  | 0, _, _, _, a, ae => (a, ae)
  | fuel + 1, n, x, xe, a, ae =>
    if n = 0 then (a, ae)
    else if xe < -exponentLimit || exponentLimit < xe then (a, ae + xe)
    else
      let (a, ae) := if n % 2 = 1 then (a * x, ae + xe) else (a, ae)
      let (x, xe) := if x * x < 0.5 then (x * x + x * x, 2 * xe - 1) else (x * x, 2 * xe)
      powNat fuel (n / 2) x xe a ae

def powFinite (x y : Float) : Float :=
  let whole := y.abs.floor
  let part := y.abs - whole
  if part != 0 && x < 0 then nan
  else if whole ≥ 9223372036854775808 then
    if x == -1 then 1 else if (x.abs < 1) == (y > 0) then 0 else infinity
  else
    let (whole, part) := if part > 0.5 then (whole + 1, part - 1) else (whole, part)
    let start := if part != 0 then exp (part * log x) else 1
    let (fraction, exponent) := x.frExp
    let (a, ae) := powNat 64 whole.toUInt64.toNat fraction exponent start 0
    if y < 0 then (1 / a).scaleB (-ae) else a.scaleB ae

def powZero (x y : Float) : Float :=
  if y < 0 then if isNegative x && isOddInteger y then -infinity else infinity
  else if isNegative x && isOddInteger y then x else 0

def pow (x y : Float) : Float :=
  if y == 0 || x == 1 then 1
  else if y == 1 then x
  else if x.isNaN || y.isNaN then nan
  else if x == 0 then powZero x y
  else if y.isInf then
    if x == -1 then 1 else if (x.abs < 1) == (y > 0) then 0 else infinity
  else if x.isInf then
    if x < 0 then powZero (1 / x) (-y) else if y < 0 then 0 else infinity
  else if y == 0.5 then x.sqrt
  else if y == -0.5 then 1 / x.sqrt
  else powFinite x y

end RealScript.Elementary
