/-! # Bytes as text

Source text arrives as bytes. Well-formed sequences become characters, and every byte that does not
start one becomes the replacement character.
-/

namespace RealScript.Text

def replacement : Char := Char.ofNat 0xFFFD

private def isContinuation (b : UInt8) : Bool := 0x80 ≤ b && b ≤ 0xBF

private def payload (b : UInt8) (mask : Nat) : Nat := b.toNat % mask

def decodeFirst : List UInt8 → Option (Char × Nat)
  | [] => none
  | a :: rest =>
    if a < 0x80 then some (Char.ofNat a.toNat, 1)
    else match rest with
      | b :: rest =>
        if 0xC2 ≤ a && a ≤ 0xDF && isContinuation b then
          some (Char.ofNat (payload a 32 * 64 + payload b 64), 2)
        else match rest with
          | c :: rest =>
            let low : UInt8 := if a == 0xE0 then 0xA0 else 0x80
            let high : UInt8 := if a == 0xED then 0x9F else 0xBF
            if 0xE0 ≤ a && a ≤ 0xEF && low ≤ b && b ≤ high && isContinuation c then
              some (Char.ofNat ((payload a 16 * 64 + payload b 64) * 64 + payload c 64), 3)
            else match rest with
              | d :: _ =>
                let low : UInt8 := if a == 0xF0 then 0x90 else 0x80
                let high : UInt8 := if a == 0xF4 then 0x8F else 0xBF
                if 0xF0 ≤ a && a ≤ 0xF4 && low ≤ b && b ≤ high &&
                    isContinuation c && isContinuation d then
                  some (Char.ofNat
                    (((payload a 8 * 64 + payload b 64) * 64 + payload c 64) * 64 + payload d 64),
                      4)
                else none
              | [] => none
          | [] => none
      | [] => none

/-- Reads bytes from the left; `skip` bytes of the current character are still to be passed over. -/
def decodeFrom : (skip : Nat) → List UInt8 → List Char
  | _, [] => []
  | skip + 1, _ :: rest => decodeFrom skip rest
  | 0, a :: rest =>
    match decodeFirst (a :: rest) with
    | some (c, width) => c :: decodeFrom (width - 1) rest
    | none => replacement :: decodeFrom 0 rest

def decode (bytes : List UInt8) : List Char := decodeFrom 0 bytes

end RealScript.Text
