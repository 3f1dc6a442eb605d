import Incognita.Text.Base64
import Incognita.Text.Utf8
import Incognita.Yaml.Fault
import Incognita.Yaml.Node
import Incognita.Yaml.Numeral
import Incognita.Yaml.Timestamp

namespace Incognita.Yaml

/-!
# Yaml — what scalars mean

A scalar in quotes is a text. One without quotes is whatever its characters look
like, and a text when they look like nothing else. A tag tells what the characters have
to look like.

* `Datum` — what a scalar can be;
* `Datum.ofPlain` — what a scalar without quotes is;
* `Datum.ofTagged` — what a scalar with a tag is;
* `Datum.ofScalar` — what a scalar is;
* `Node.typeName` — the name of a node's type.
-/

/-- What a scalar can be. A merge key stands for the entries of other mappings. -/
inductive Datum where
  | null
  | bool (b : Bool)
  | int (n : Int)
  | float (x : Double)
  | timestamp
  | merge
  | text (s : String)
  deriving DecidableEq, Repr

namespace Datum

/-- The name of the type of a datum. -/
def tag : Datum → String
  | null => "!!null"
  | bool _ => "!!bool"
  | int _ => "!!int"
  | float _ => "!!float"
  | timestamp => "!!timestamp"
  | merge => "!!merge"
  | text _ => "!!str"

/-- The data that are known by name. -/
def ofWord? : String → Option Datum
  | "" | "~" | "null" | "Null" | "NULL" => some .null
  | "true" | "True" | "TRUE" => some (.bool true)
  | "false" | "False" | "FALSE" => some (.bool false)
  | ".nan" | ".NaN" | ".NAN" => some (.float .nan)
  | ".inf" | ".Inf" | ".INF" | "+.inf" | "+.Inf" | "+.INF" => some (.float (.infinite false))
  | "-.inf" | "-.Inf" | "-.INF" => some (.float (.infinite true))
  | "<<" => some .merge
  | _ => none

/-- Whether every underscore has a digit on both sides. -/
def separatesDigits (before : Bool) : List Char → Bool
  | [] => true
  | '_' :: cs => before && (cs.head?.map Char.isDigit).getD false && separatesDigits false cs
  | c :: cs => separatesDigits c.isDigit cs

/-- The number that characters spell, without their underscores. -/
def number? (cs : List Char) : Option Datum :=
  let plain := cs.filter (· != '_')
  ((integer? plain).map int) <|> ((decimal? plain).map float)

/-- What characters are that start like a number, if they are not a text. Not always is a
    timestamp looked for. -/
def ofNumeral? (timestamps : Bool) (cs : List Char) : Option Datum :=
  match cs with
  | '.' :: _ =>
    if separatesDigits false cs then (decimal? (cs.filter (· != '_'))).map float else none
  | _ => if timestamps && isTimestamp cs then some timestamp else number? cs

/-- Whether a number can start with a character. -/
def startsNumeral (c : Char) : Bool := c.isDigit || c == '+' || c == '-' || c == '.'

/-- What characters look like. -/
def ofText (timestamps : Bool) (s : String) : Datum :=
  match ofWord? s with
  | some d => d
  | none =>
    match s.toList with
    | c :: cs =>
      if startsNumeral c then (ofNumeral? timestamps (c :: cs)).getD (text s) else text s
    | [] => text s

/-- What a scalar without quotes is. -/
def ofPlain (s : String) : Datum := ofText true s

/-- The double nearest to a number of at most 64 bits. -/
def doubleOf (n : Int) : Double :=
  if n = 0 then .finite 0
  else .finite (n.sign * (nearestWhole? n.natAbs 1).getD 0)

/-- What a scalar with a tag is. Every scalar can be a text, and a whole number of 64 bits
    with a sign can be a floating point number. -/
def ofTagged (tag s : String) : Except Flaw Datum :=
  match tag with
  | "!!str" => .ok (text s)
  | "!!binary" =>
    match Text.Base64.decode? s.toList with
    | some bytes => .ok (text (Text.Utf8.decode bytes))
    | none => .error .badBinary
  | _ =>
    let d := ofText (tag == "!!timestamp") s
    match d, tag with
    | .int n, "!!float" => if n < Int.pow 2 63 then .ok (float (doubleOf n)) else wrong d
    | d, tag => if d.tag == tag then .ok d else wrong d
where
  /-- The flaw that a scalar is not what its tag tells. -/
  wrong (d : Datum) : Except Flaw Datum := .error (.wrongTag d.tag s tag)

/-- What a scalar is. -/
def ofScalar (tag : Option String) (style : Style) (s : String) : Except Flaw Datum :=
  match tag, style with
  | some tag, _ => ofTagged tag s
  | none, .plain => .ok (ofPlain s)
  | none, .quoted => .ok (text s)

end Datum

/-- The name of a node's type: its tag, if there is one. -/
def Node.typeName : Node → String
  | .scalar _ (some tag) _ _ | .seq _ (some tag) _ | .map _ (some tag) _ => tag
  | .scalar _ none .plain text => (Datum.ofPlain text).tag
  | .scalar _ none .quoted _ => "!!str"
  | .seq _ none _ => "!!seq"
  | .map _ none _ => "!!map"
  | .reference .. => ""

/-- Whether a key stands for the entries of other mappings. -/
def Node.isMerge : Node → Bool
  | .scalar _ tag style text =>
    text == "<<" && (tag == some "!!merge" || (tag.isNone && style == .plain))
  | _ => false

end Incognita.Yaml
