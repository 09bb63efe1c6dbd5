/-! # Points in time

A date, alone or with a time of day. Behind the letter `T` the time ends with its zone, and behind
blanks there is no zone. Months, days and the parts of a time have one digit or two.
-/

namespace RealScript.Timestamp

private def digit (c : Char) : Nat := c.toNat - 48

def number? : List Char → Option (Nat × List Char)
  | a :: b :: rest =>
    if !a.isDigit then none
    else if b.isDigit then some (digit a * 10 + digit b, rest)
    else some (digit a, b :: rest)
  | [a] => if a.isDigit then some (digit a, []) else none
  | [] => none

private def expect? (c : Char) : List Char → Option (List Char)
  | d :: rest => if c = d then some rest else none
  | [] => none

def isLeap (year : Nat) : Bool := year % 4 = 0 && (year % 100 ≠ 0 || year % 400 = 0)

def daysIn (year month : Nat) : Nat :=
  if month = 2 then (if isLeap year then 29 else 28)
  else if [4, 6, 9, 11].contains month then 30
  else 31

def date? : List Char → Option (List Char)
  | a :: b :: c :: d :: rest => do
    guard ([a, b, c, d].all Char.isDigit)
    let year := ((digit a * 10 + digit b) * 10 + digit c) * 10 + digit d
    let (month, rest) ← number? (← expect? '-' rest)
    let (day, rest) ← number? (← expect? '-' rest)
    guard (1 ≤ month && month ≤ 12 && 1 ≤ day && day ≤ daysIn year month)
    return rest
  | _ => none

private def dropDecimals : List Char → List Char
  | c :: d :: rest =>
    if (c == '.' || c == ',') && d.isDigit then rest.dropWhile Char.isDigit else c :: d :: rest
  | cs => cs

def time? (cs : List Char) : Option (List Char) := do
  let (hour, rest) ← number? cs
  let (minute, rest) ← number? (← expect? ':' rest)
  let (second, rest) ← number? (← expect? ':' rest)
  guard (hour < 24 && minute < 60 && second < 60)
  return dropDecimals rest

def isZone : List Char → Bool
  | ['Z'] => true
  | [sign, a, b, ':', c, d] =>
    (sign == '+' || sign == '-') && [a, b, c, d].all Char.isDigit &&
      digit a * 10 + digit b ≤ 24 && digit c * 10 + digit d ≤ 60
  | _ => false

def isTimestamp (s : String) : Bool :=
  match date? s.toList with
  | none => false
  | some [] => true
  | some (c :: rest) =>
    if c == 'T' || c == 't' then (time? rest).any isZone
    else c == ' ' && (time? (rest.dropWhile (· == ' '))).any List.isEmpty

end RealScript.Timestamp
