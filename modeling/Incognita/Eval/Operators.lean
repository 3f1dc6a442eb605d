import Incognita.Value

namespace Incognita

/-!
# Eval — the operators

Arithmetic is that of 64-bit integers: it wraps around, and division goes toward
zero. Two integers or two strings are compared by what they are, and any two other
values by whether they are the same. The two logical operators are not here, since
they may leave their right operand unevaluated.

* `Value.negation`, `Value.minus`, `Value.unary` — the operators with one operand;
* `Int64.binary`, `Value.binary` — the operators with two.
-/

namespace Value

/-- The opposite truth value. Everything but false and null gives false. -/
def negation : Value → Value
  | .bool true => .bool false
  | .bool false => .bool true
  | .null => .bool true
  | _ => .bool false

/-- The negative of an integer. -/
def minus : Value → Value
  | .int n => .int (-n)
  | v => .err (.unknownUnary "-" v.kind)

/-- An operator applied to one plain value. -/
def unary (op : String) (v : Value) : Value :=
  if op = "!" then v.negation
  else if op = "-" then v.minus
  else .err (.unknownUnary op v.kind)

/-- An operator applied to two integers. -/
def binaryInt (op : String) (m n : Int64) : Value :=
  if op = "+" then .int (m + n)
  else if op = "-" then .int (m - n)
  else if op = "*" then .int (m * n)
  else if op = "/" then if n = 0 then .err (.divisionByZero m) else .int (m / n)
  else if op = "<" then .bool (m < n)
  else if op = "<=" then .bool (m ≤ n)
  else if op = ">" then .bool (n < m)
  else if op = ">=" then .bool (n ≤ m)
  else if op = "==" then .bool (m == n)
  else if op = "!=" then .bool (m != n)
  else .err (.unknownBinary .integer op .integer)

/-- An operator applied to two strings. -/
def binaryStr (op : String) (s t : String) : Value :=
  if op = "+" then .str (s ++ t)
  else if op = "==" then .bool (s == t)
  else if op = "!=" then .bool (s != t)
  else .err (.unknownBinary .string op .string)

/-- An operator applied to two plain values. -/
def binary (op : String) : Value → Value → Value
  | .int m, .int n => binaryInt op m n
  | .str s, .str t => binaryStr op s t
  | v, w =>
    if op = "==" then .bool (v.same w)
    else if op = "!=" then .bool (!v.same w)
    else if v.kind = w.kind then .err (.unknownBinary v.kind op w.kind)
    else .err (.typeMismatch v.kind op w.kind)

end Value

end Incognita
