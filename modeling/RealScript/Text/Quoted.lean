import RealScript.Text.Bytes
import RealScript.Text.Printable

/-! # Quoted text

The quoted form of text and characters in messages. Printable characters stand for themselves, the
quote in use and the backslash are escaped, and all else is written by its code.
-/

namespace RealScript.Text

def hexDigit (n : Nat) : Char :=
  if n < 10 then Char.ofNat (48 + n) else Char.ofNat (87 + n)

def hexDigits : (width n : Nat) → List Char
  | 0, _ => []
  | width + 1, n => hexDigits width (n / 16) ++ [hexDigit (n % 16)]

def controlLetter (c : Char) : Option Char :=
  match c.toNat with
  | 7 => some 'a'
  | 8 => some 'b'
  | 9 => some 't'
  | 10 => some 'n'
  | 11 => some 'v'
  | 12 => some 'f'
  | 13 => some 'r'
  | _ => none

def escapedCode (n : Nat) : List Char :=
  if n < 0x80 then '\\' :: 'x' :: hexDigits 2 n
  else if n < 0x10000 then '\\' :: 'u' :: hexDigits 4 n
  else '\\' :: 'U' :: hexDigits 8 n

def escaped (quote c : Char) : List Char :=
  if c == quote || c == '\\' then ['\\', c]
  else if isPrintable c then [c]
  else match controlLetter c with
    | some l => ['\\', l]
    | none => escapedCode c.toNat

def quoted (s : String) : String :=
  String.ofList ('"' :: s.toList.flatMap (escaped '"') ++ ['"'])

/-- Escapes bytes; `skip` bytes of the current character are still to be passed over. A byte that is
no part of a character is written by its value. -/
def escapedBytes : (skip : Nat) → List UInt8 → List Char
  | _, [] => []
  | skip + 1, _ :: rest => escapedBytes skip rest
  | 0, b :: rest =>
    match decodeFirst (b :: rest) with
    | some (c, width) => escaped '"' c ++ escapedBytes (width - 1) rest
    | none => '\\' :: 'x' :: hexDigits 2 b.toNat ++ escapedBytes 0 rest

def quotedBytes (bytes : List UInt8) : String :=
  String.ofList ('"' :: escapedBytes 0 bytes ++ ['"'])

def quotedChar (c : Char) : String :=
  String.ofList ('\'' :: escaped '\'' c ++ ['\''])

end RealScript.Text
