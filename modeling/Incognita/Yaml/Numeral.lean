import Incognita.Text.Decimal
import Incognita.Yaml.Scalar

namespace Incognita.Yaml

/-!
# Yaml — numbers

* `integer?` — whole numbers in base 10, 16, 8 or 2, as far as 64 bits hold them;
* `roundHalfEven` — a quotient to the nearest whole number;
* `nearestWhole?` — the whole part of the double nearest to a quotient;
* `Double` — floating point numbers, as far as their whole part goes;
* `decimal?` — numbers with a fraction or an exponent.
-/

/-- The number that digits in a base spell. -/
def natOfBase? (base : Nat) (cs : List Char) : Option Nat :=
  if cs.isEmpty then none
  else cs.foldlM (fun n c => do
    let d ← hexValue? c
    if d < base then some (base * n + d) else none) 0

/-- A number without a sign. In front of the digits, `0x` stands for base 16, `0b`
    for base 2, and `0o` or a zero for base 8. -/
def natural? : List Char → Option Nat
  | ['0'] => some 0
  | '0' :: 'x' :: c :: cs | '0' :: 'X' :: c :: cs => natOfBase? 16 (c :: cs)
  | '0' :: 'b' :: c :: cs | '0' :: 'B' :: c :: cs => natOfBase? 2 (c :: cs)
  | '0' :: 'o' :: c :: cs | '0' :: 'O' :: c :: cs => natOfBase? 8 (c :: cs)
  | '0' :: cs => natOfBase? 8 cs
  | cs => natOfBase? 10 cs

/-- A sign, if there is one, and what follows it. The first result tells whether the
    sign is a minus. -/
def splitSign : List Char → Bool × List Char
  | '-' :: cs => (true, cs)
  | '+' :: cs => (false, cs)
  | cs => (false, cs)

/-- A number with the given sign, when 64 bits with a sign hold it. -/
def signed? (negative : Bool) (n : Nat) : Option Int :=
  if negative then (if n ≤ Nat.pow 2 63 then some (-n) else none)
  else if n < Nat.pow 2 63 then some n
  else none

/-- A whole number. With a sign it has to fit into 64 bits with a sign, without one
    into 64 bits. After `0b` and `0o` a sign may stand in front of the digits too. -/
def integer? (cs : List Char) : Option Int :=
  let (negative, digits) := splitSign cs
  let inBase (base : Nat) (cs : List Char) : Option Int :=
    let (negative, digits) := splitSign cs
    natOfBase? base digits >>= signed? negative
  ((natural? digits >>= signed? negative) <|>
    ((natural? cs).bind fun n => if n < Nat.pow 2 64 then some (n : Int) else none)) <|>
    match cs with
    | '0' :: 'b' :: cs => inBase 2 cs
    | '0' :: 'o' :: cs => inBase 8 cs
    | _ => none

/-- The whole number nearest to a quotient, and the even one of two. -/
def roundHalfEven (num den : Nat) : Nat :=
  let q := num / den
  let r := num % den
  if den < 2 * r || (2 * r == den && q % 2 == 1) then q + 1 else q

/-- The largest `k` with `2 ^ k ≤ num / den`, both not zero. -/
def log2Quotient (num den : Nat) : Int :=
  let k : Int := Nat.log2 num - Nat.log2 den
  if num * Nat.pow 2 (-k).toNat < den * Nat.pow 2 k.toNat then k - 1 else k

/-- The whole part of the double nearest to a quotient, of which neither part is zero.
    A double has 53 bits, and from `2 ^ 1024` on there is none. -/
def nearestWhole? (num den : Nat) : Option Nat :=
  let unit := log2Quotient num den - 52
  let whole :=
    if 0 ≤ unit then roundHalfEven num (den * Nat.pow 2 unit.toNat) * Nat.pow 2 unit.toNat
    else roundHalfEven (num * Nat.pow 2 (-unit).toNat) den / Nat.pow 2 (-unit).toNat
  if whole < Nat.pow 2 1024 then some whole else none

/-- A floating point number, of which only the whole part is kept. -/
inductive Double where
  | nan
  | infinite (negative : Bool)
  | finite (whole : Int)
  deriving DecidableEq, Repr

/-- The whole part of the double nearest to `m * 10 ^ e`. Powers that are beyond every
    double are not computed. -/
def wholeOfDecimal? (m : Nat) (e : Int) : Option Nat :=
  let size : Int := (Nat.toDigits 10 m).length + e
  if m = 0 || size < 0 then some 0
  else if 400 < size then none
  else nearestWhole? (m * Nat.pow 10 e.toNat) (Nat.pow 10 (-e).toNat)

/-- The exponent of a decimal number. -/
def exponent? : List Char → Option Int
  | [] => some 0
  | c :: cs =>
    if c == 'e' || c == 'E' then
      let (negative, digits) := splitSign cs
      if digits.isEmpty || !digits.all Char.isDigit then none
      else
        let n := Text.natOfDigits digits
        some (if negative then -n else n)
    else none

/-- A decimal number: an optional sign, digits of which a point may stand in front,
    between or behind, and an optional exponent. -/
def decimal? (cs : List Char) : Option Double := do
  let (negative, cs) := splitSign cs
  let whole := cs.takeWhile Char.isDigit
  let afterWhole := cs.dropWhile Char.isDigit
  let (fraction, afterFraction) := match afterWhole with
    | '.' :: cs => (cs.takeWhile Char.isDigit, cs.dropWhile Char.isDigit)
    | cs => ([], cs)
  if whole.isEmpty && fraction.isEmpty then none
  let e ← exponent? afterFraction
  let n ← wholeOfDecimal? (Text.natOfDigits (whole ++ fraction)) (e - fraction.length)
  some (.finite (if negative then -n else n))

end Incognita.Yaml
