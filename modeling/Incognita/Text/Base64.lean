namespace Incognita.Text

/-!
# Text — bytes written in base 64

Four characters stand for three bytes. The last four may stand for one or two bytes, and
then end in two or one equals signs. Line breaks do not count.

* `Base64.digit?` — the value of a character;
* `Base64.decode?` — the bytes that characters stand for.
-/

namespace Base64

/-- The value of a character. -/
def digit? (c : Char) : Option Nat :=
  if c.isUpper then some (c.toNat - 'A'.toNat)
  else if c.isLower then some (c.toNat - 'a'.toNat + 26)
  else if c.isDigit then some (c.toNat - '0'.toNat + 52)
  else if c == '+' then some 62
  else if c == '/' then some 63
  else none

/-- The bytes of a number of three bytes, the highest one first. -/
def bytesOf (n : Nat) : List UInt8 :=
  [(n / 65536).toUInt8, (n / 256).toUInt8, n.toUInt8]

/-- The number that digits spell in base 64. -/
def numberOf? (cs : List Char) : Option Nat :=
  cs.foldlM (fun n c => (digit? c).map (64 * n + ·)) 0

/-- The bytes that characters other than line breaks stand for. -/
def groups? : List Char → Option (List UInt8)
  | [] => some []
  | [a, b, '=', '='] => (numberOf? [a, b]).map fun n => (bytesOf (n * 4096)).take 1
  | [a, b, c, '='] => (numberOf? [a, b, c]).map fun n => (bytesOf (n * 64)).take 2
  | a :: b :: c :: d :: cs => do some (bytesOf (← numberOf? [a, b, c, d]) ++ (← groups? cs))
  | _ => none

/-- The bytes that characters stand for. -/
def decode? (cs : List Char) : Option (List UInt8) :=
  groups? (cs.filter fun c => c ≠ '\n' && c ≠ '\r')

end Base64

end Incognita.Text
