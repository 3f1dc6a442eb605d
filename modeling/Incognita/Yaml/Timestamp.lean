import Incognita.Text.Decimal

namespace Incognita.Yaml

/-!
# Yaml — points in time

A year of four digits, a month and a day, and after them nothing, a letter T with
the time of day and its zone, or blanks with the time of day alone. Numbers other
than the year have one or two digits.

* `isTimestamp` — whether a text is a point in time.
-/

/-- A number of one or two digits, and what follows it. -/
def shortNumber? : List Char → Option (Nat × List Char)
  | a :: b :: cs =>
    if a.isDigit && b.isDigit then some (Text.natOfDigits [a, b], cs)
    else if a.isDigit then some (Text.digitValue a, b :: cs)
    else none
  | [a] => if a.isDigit then some (Text.digitValue a, []) else none
  | [] => none

/-- What follows a given character. -/
def after? (c : Char) : List Char → Option (List Char)
  | d :: cs => if c = d then some cs else none
  | [] => none

/-- How many days a month has. -/
def daysIn (year month : Nat) : Nat :=
  if month = 2 then (if year % 4 = 0 ∧ (year % 100 ≠ 0 ∨ year % 400 = 0) then 29 else 28)
  else if month = 4 ∨ month = 6 ∨ month = 9 ∨ month = 11 then 30
  else 31

/-- What follows a date. -/
def date? : List Char → Option (List Char)
  | a :: b :: c :: d :: '-' :: cs => do
    if !([a, b, c, d].all Char.isDigit) then none
    let (month, cs) ← shortNumber? cs
    let cs ← after? '-' cs
    let (day, cs) ← shortNumber? cs
    if 1 ≤ month ∧ month ≤ 12 ∧ 1 ≤ day ∧ day ≤ daysIn (Text.natOfDigits [a, b, c, d]) month then
      some cs
    else none
  | _ => none

/-- What follows the fraction of a second, if there is one. -/
def dropFraction : List Char → List Char
  | p :: d :: cs =>
    if (p == '.' || p == ',') && d.isDigit then cs.dropWhile Char.isDigit else p :: d :: cs
  | cs => cs

/-- What follows a time of day. -/
def timeOfDay? (cs : List Char) : Option (List Char) := do
  let (hour, cs) ← shortNumber? cs
  let cs ← after? ':' cs
  let (minute, cs) ← shortNumber? cs
  let cs ← after? ':' cs
  let (second, cs) ← shortNumber? cs
  if hour < 24 ∧ minute < 60 ∧ second < 60 then some (dropFraction cs) else none

/-- Whether a text is a zone: a letter Z, or a sign with hours and minutes. -/
def isZone : List Char → Bool
  | ['Z'] => true
  | [s, a, b, ':', c, d] =>
    (s == '+' || s == '-') && [a, b, c, d].all Char.isDigit &&
      Text.natOfDigits [a, b] ≤ 24 && Text.natOfDigits [c, d] ≤ 60
  | _ => false

/-- Whether a text is a point in time. -/
def isTimestamp (cs : List Char) : Bool :=
  match date? cs with
  | none => false
  | some [] => true
  | some (c :: cs) =>
    if c == 'T' || c == 't' then ((timeOfDay? cs).map isZone).getD false
    else if c == ' ' then timeOfDay? (cs.dropWhile (· == ' ')) == some []
    else false

end Incognita.Yaml
