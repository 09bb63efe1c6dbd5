import RealScript.Decimal.Reader
import RealScript.Text.Bytes
import RealScript.Yaml.Cursor

/-! # Anchors, tags and directives of YAML texts

A tag is written with a handle, which stands for the first part of its name, or in full between
angle brackets. Directives tell what handles stand for.
-/

namespace RealScript

open Yaml

structure YamlTagWord where
  handle : String
  suffix : String
  deriving DecidableEq, Repr

inductive YamlDirective where
  | version (major minor : Nat)
  | handle (handle stem : String)
  deriving DecidableEq, Repr

namespace YamlRead

private def closesAnchor (c : Option Char) : Bool :=
  endsWord c || c.any fun c => ['?', ':', ',', ']', '\x7d', '%', '@', '\x60'].contains c

def anchorName : YamlRead String := do
  skip
  let name ← take isNameChar
  if name.isEmpty || !closesAnchor (← peek) then failure
  return String.ofList name

/-! ### Tags -/

private def isTagChar (c : Char) : Bool :=
  isNameChar c ||
    [';', '/', '?', ':', '@', '&', '=', '+', '$', '.', ',', '!', '~', '*', '\'', '(', ')', '[',
      ']'].contains c

private def tagByte : YamlRead UInt8 := do
  let digit (c : Option Char) : Option Nat := c.bind Decimal.digitValue
  match ← peek, digit (← ahead 1), digit (← ahead 2) with
  | some '%', some high, some low =>
    skip
    skip
    skip
    return UInt8.ofNat (high * 16 + low)
  | _, _, _ => failure

private def byteWidth? (b : UInt8) : Option Nat :=
  if b < 0x80 then some 1
  else if b < 0xC0 then none
  else if b < 0xE0 then some 2
  else if b < 0xF0 then some 3
  else if b < 0xF8 then some 4
  else none

private def moreTagBytes : (count : Nat) → List UInt8 → YamlRead (List UInt8)
  | 0, found => return found.reverse
  | count + 1, found => do
    let b ← tagByte
    if 0x80 ≤ b && b < 0xC0 then moreTagBytes count (b :: found) else failure

private def tagEscape : YamlRead (List Char) := do
  let b ← tagByte
  let some width := byteWidth? b | failure
  return Text.decode (← moreTagBytes (width - 1) [b])

private def tagChars : (fuel : Nat) → (found : List Char) → YamlRead (List Char)
  | 0, found => return found
  | fuel + 1, found => do
    let found := (← takeReversed isTagChar) ++ found
    if (← peek) = some '%' then
      tagChars fuel ((← tagEscape).reverse ++ found)
    else return found

private def tagText (head : List Char) : YamlRead String := do
  return String.ofList (← tagChars (← steps) head.reverse).reverse

private def someTagText : YamlRead String := do
  let text ← tagText []
  if text.isEmpty then failure
  return text

private def tagHandle : YamlRead (List Char × Bool) := do
  if (← peek) ≠ some '!' then failure
  skip
  let name ← take isNameChar
  if (← peek) = some '!' then
    skip
    return (name, true)
  else return (name, false)

private def closedHandle (name : List Char) : String := "!" ++ String.ofList name ++ "!"

def tagWord : YamlRead YamlTagWord := do
  let tag ← (do
    if (← ahead 1) = some '<' then
      skip
      skip
      let suffix ← someTagText
      if (← peek) ≠ some '>' then failure
      skip
      return { handle := "", suffix }
    else
      match ← tagHandle with
      | (name, true) => return { handle := closedHandle name, suffix := ← someTagText }
      | (name, false) =>
        let suffix ← tagText name
        if suffix.isEmpty then return { handle := "", suffix := "!" }
        else return { handle := "!", suffix })
  if !endsWord (← peek) then failure
  return tag

/-! ### Directives -/

private def versionNumber : YamlRead Nat := do
  let digits ← take Char.isDigit
  if digits.isEmpty || 2 < digits.length then failure
  return digits.foldl (fun n c => n * 10 + (c.toNat - 48)) 0

private def versionDirective : YamlRead YamlDirective := do
  let major ← versionNumber
  if (← peek) ≠ some '.' then failure
  skip
  return .version major (← versionNumber)

private def handleDirective : YamlRead YamlDirective := do
  let handle ← (do
    match ← tagHandle with
    | (name, true) => return closedHandle name
    | ([], false) => return "!"
    | (_, false) => failure)
  if !atBlank (← peek) then failure
  skipBlanks
  let stem ← someTagText
  if !endsWord (← peek) then failure
  return .handle handle stem

def directive : YamlRead YamlDirective := do
  skip
  let name ← take isNameChar
  if !endsWord (← peek) then failure
  skipBlanks
  let d ← match String.ofList name with
    | "YAML" => versionDirective
    | "TAG" => handleDirective
    | _ => failure
  skipBlanks
  if (← peek) = some '#' then skipComment
  if !endsLine (← peek) then failure
  let _ ← lineEnd
  return d

end YamlRead

end RealScript
