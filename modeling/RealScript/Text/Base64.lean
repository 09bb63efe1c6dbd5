/-! # Bytes in base 64

Three bytes are written with four letters. Equal signs fill up the last group.
-/

namespace RealScript.Text

def base64Value? (c : Char) : Option Nat :=
  if 'A' ≤ c && c ≤ 'Z' then some (c.toNat - 65)
  else if 'a' ≤ c && c ≤ 'z' then some (c.toNat - 71)
  else if c.isDigit then some (c.toNat + 4)
  else if c == '+' then some 62
  else if c == '/' then some 63
  else none

/-- The bytes that letters stand for; `found` holds those of earlier groups, last first. Bits of the
last group that belong to no byte do not count. -/
def base64Bytes? (found : List UInt8) : List Char → Option (List UInt8)
  | [] => some found.reverse
  | [a, b, '=', '='] => do
    let n := (← base64Value? a) * 64 + (← base64Value? b)
    return (UInt8.ofNat (n / 16) :: found).reverse
  | [a, b, c, '='] => do
    let n := ((← base64Value? a) * 64 + (← base64Value? b)) * 64 + (← base64Value? c)
    return (UInt8.ofNat (n / 4) :: UInt8.ofNat (n / 1024) :: found).reverse
  | a :: b :: c :: d :: rest =>
    match base64Value? a, base64Value? b, base64Value? c, base64Value? d with
    | some a, some b, some c, some d =>
      let n := ((a * 64 + b) * 64 + c) * 64 + d
      base64Bytes?
        (UInt8.ofNat n :: UInt8.ofNat (n / 256) :: UInt8.ofNat (n / 65536) :: found) rest
    | _, _, _, _ => none
  | _ => none

def ofBase64? (s : String) : Option (List UInt8) :=
  base64Bytes? [] (s.toList.filter fun c => c != '\n' && c != '\r')

end RealScript.Text
