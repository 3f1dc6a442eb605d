namespace Incognita.Text

/-!
# Text — decimal numerals

* `digitValue`, `natOfDigits` — the number that a run of digits spells;
* `int64OfDigits?` — the same as a machine integer, when it fits;
* `ofNat`, `ofInt`, `ofInt64` — numbers in decimal, without leading zeros.
-/

/-- The value of a digit. -/
def digitValue (c : Char) : Nat := c.toNat - '0'.toNat

/-- The number that digits spell, the first one counting most. -/
def natOfDigits (digits : List Char) : Nat :=
  digits.foldl (fun n c => 10 * n + digitValue c) 0

/-- The machine integer that digits spell, or none from `2 ^ 63` on. -/
def int64OfDigits? (digits : String) : Option Int64 :=
  let n := natOfDigits digits.toList
  if n < Nat.pow 2 63 then some (Int64.ofNat n) else none

/-- A natural number in decimal. -/
def ofNat (n : Nat) : String := String.ofList (Nat.toDigits 10 n)

/-- An integer in decimal, with a minus sign when it is negative. -/
def ofInt : Int → String
  | .ofNat n => ofNat n
  | .negSucc n => "-" ++ ofNat (n + 1)

/-- A machine integer in decimal. -/
def ofInt64 (n : Int64) : String := ofInt n.toInt

end Incognita.Text
