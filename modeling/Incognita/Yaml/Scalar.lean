import Incognita.Yaml.Fault

namespace Incognita.Yaml

/-!
# Yaml — the text of scalars

A scalar can go over several lines. A single line break between two words becomes a
blank, and of several ones the first is dropped.

* `Gap` — the blanks and line breaks between two words of a scalar, and the text
  that stands for them;
* `lineRest` — the end of a line that holds no more words;
* `plain` — a scalar without quotes;
* `singleQuoted` — a scalar in single quotes, in which a quote is written twice;
* `doubleQuoted` — a scalar in double quotes, in which a backslash starts an escape.

The scalars are given with what follows them.
-/

/-- The character that stands in a text for a line break. -/
def breakText (c : Char) : Char := if c == '\u0085' then '\n' else c

/-- The blanks and line breaks since the last word, the latest one first. Blanks
    next to a line break do not count, and neither does an escaped line break. -/
inductive Gap where
  | none
  | spaces (cs : List Char)
  | breaks (first : Option Char) (more : List Char)
  deriving DecidableEq, Repr

namespace Gap

/-- A gap with one more blank. -/
def addSpace (c : Char) : Gap → Gap
  | none => spaces [c]
  | spaces cs => spaces (c :: cs)
  | breaks first more => breaks first more

/-- A gap with one more line break. -/
def addBreak (c : Char) : Gap → Gap
  | none | spaces _ => breaks (some (breakText c)) []
  | breaks first more => breaks first (breakText c :: more)

/-- Whether a line ends in a gap. -/
def endsLine : Gap → Bool
  | breaks .. => true
  | _ => false

/-- The text that stands for a gap, the last character first. -/
def folded : Gap → List Char
  | none => []
  | spaces cs => cs
  | breaks (some '\n') [] => [' ']
  | breaks (some '\n') more => more
  | breaks (some c) more => more ++ [c]
  | breaks Option.none more => more

end Gap

/-- A scalar that was read: its text, what follows it, and whether a line ended
    after its last word. -/
structure Scanned where
  text : String
  rest : List Cell
  endsLine : Bool

/-- What follows the rest of a line, which holds nothing but blanks and a comment. -/
def lineRest (start : Mark) (cs : List Cell) : Except Fault (List Cell) :=
  match Cell.dropGaps cs with
  | [] => .ok []
  | c :: rest =>
    if c.char == '#' then .ok ((Cell.dropLine rest).drop 1)
    else if c.endsLine then .ok rest
    else .error (.inToken .noLineEnd start c.mark)

/-- Whether a scalar without quotes ends in front of these characters, though no
    blank comes. -/
def endsPlain (inFlow : Bool) : List Cell → Bool
  | [] => true
  | c :: rest =>
    (c.char == ':' && Cell.endsWord rest) ||
      (inFlow && (c.char == ',' || c.char == '?' || c.char == '[' || c.char == ']' ||
        c.char == '\x7b' || c.char == '\x7d'))

/-- The rest of a scalar without quotes that started at `start`, after the
    characters `text`, the last one first, and a gap. In a block its lines are
    indented by at least `indent`. -/
def plainFrom (inFlow : Bool) (indent : Nat) (start : Mark) (text : List Char) (gap : Gap) :
    List Cell → Except Fault Scanned
  | [] => .ok ⟨String.ofList text.reverse, [], gap.endsLine⟩
  | c :: rest =>
    if c.isGap then
      if gap.endsLine && c.mark.column < indent && c.char == '\t' then
        .error (.inToken .tabIndentation start c.mark)
      else plainFrom inFlow indent start text (gap.addSpace c.char) rest
    else if c.endsLine then plainFrom inFlow indent start text (gap.addBreak c.char) rest
    else if gap ≠ .none && (c.char == '#' || Cell.atMarker (c :: rest) ||
        (gap.endsLine && !inFlow && c.mark.column < indent)) then
      .ok ⟨String.ofList text.reverse, c :: rest, gap.endsLine⟩
    else if endsPlain inFlow (c :: rest) then
      .ok ⟨String.ofList text.reverse, c :: rest, gap.endsLine⟩
    else plainFrom inFlow indent start (c.char :: (gap.folded ++ text)) .none rest

/-- A scalar without quotes. -/
def plain (inFlow : Bool) (indent : Nat) (start : Mark) (cs : List Cell) :
    Except Fault Scanned :=
  plainFrom inFlow indent start [] .none cs

/-- The rest of a scalar in single quotes. The last quote is open when it may be the
    first one of two. -/
def singleQuotedFrom (start stop : Mark) (text : List Char) (gap : Gap) :
    List Cell → Except Fault Scanned
  | [] => .error (.inToken .unexpectedEnd start stop)
  | c :: rest =>
    if c.isGap then singleQuotedFrom start stop text (gap.addSpace c.char) rest
    else if c.endsLine then singleQuotedFrom start stop text (gap.addBreak c.char) rest
    else if gap.endsLine && Cell.atMarker (c :: rest) then
      .error (.inToken .unexpectedMarker start c.mark)
    else if c.char == '\'' then
      match rest with
      | d :: more =>
        if d.char == '\'' then
          singleQuotedFrom start stop ('\'' :: (gap.folded ++ text)) .none more
        else .ok ⟨String.ofList (gap.folded ++ text).reverse, rest, false⟩
      | [] => .ok ⟨String.ofList (gap.folded ++ text).reverse, [], false⟩
    else singleQuotedFrom start stop (c.char :: (gap.folded ++ text)) .none rest

/-- A scalar in single quotes, after the first quote. -/
def singleQuoted (start stop : Mark) (cs : List Cell) : Except Fault Scanned :=
  singleQuotedFrom start stop [] .none cs

/-- What an escape stands for: a character, or the number that so many hexadecimal
    digits spell. -/
inductive Escape where
  | char (c : Char)
  | code (digits : Nat)
  deriving DecidableEq, Repr

/-- The escape that a character after a backslash starts. -/
def Escape.ofChar? : Char → Option Escape
  | '0' => some (.char '\x00')
  | 'a' => some (.char '\x07')
  | 'b' => some (.char '\x08')
  | 't' | '\t' => some (.char '\t')
  | 'n' => some (.char '\n')
  | 'v' => some (.char '\x0b')
  | 'f' => some (.char '\x0c')
  | 'r' => some (.char '\r')
  | 'e' => some (.char '\x1b')
  | ' ' => some (.char ' ')
  | '"' => some (.char '"')
  | '\'' => some (.char '\'')
  | '\\' => some (.char '\\')
  | 'N' => some (.char '\u0085')
  | '_' => some (.char '\u00a0')
  | 'L' => some (.char '\u2028')
  | 'P' => some (.char '\u2029')
  | 'x' => some (.code 2)
  | 'u' => some (.code 4)
  | 'U' => some (.code 8)
  | _ => none

/-- The value of a hexadecimal digit. -/
def hexValue? (c : Char) : Option Nat :=
  if '0' ≤ c && c ≤ '9' then some (c.toNat - '0'.toNat)
  else if 'a' ≤ c && c ≤ 'f' then some (c.toNat - 'a'.toNat + 10)
  else if 'A' ≤ c && c ≤ 'F' then some (c.toNat - 'A'.toNat + 10)
  else none

/-- How far an escape has been read. -/
inductive Pending where
  | none
  | backslash
  | code (left value : Nat)
  deriving DecidableEq, Repr

/-- The problem of a scalar in double quotes that stops where an escape is pending. -/
def Pending.problem : Pending → Problem
  | none => .unexpectedEnd
  | backslash => .unknownEscape
  | code .. => .badHexadecimal

/-- The rest of a scalar in double quotes. -/
def doubleQuotedFrom (start stop : Mark) (text : List Char) (gap : Gap) (pending : Pending) :
    List Cell → Except Fault Scanned
  | [] => .error (.inToken pending.problem start stop)
  | c :: rest =>
    match pending with
    | .backslash =>
      if c.endsLine then doubleQuotedFrom start stop text (.breaks none []) .none rest
      else
        match Escape.ofChar? c.char with
        | some (.char d) => doubleQuotedFrom start stop (d :: text) .none .none rest
        | some (.code n) => doubleQuotedFrom start stop text .none (.code n 0) rest
        | none => .error (.inToken .unknownEscape start c.mark)
    | .code left value =>
      match hexValue? c.char with
      | none => .error (.inToken .badHexadecimal start c.mark)
      | some d =>
        let value := 16 * value + d
        if 1 < left then doubleQuotedFrom start stop text .none (.code (left - 1) value) rest
        else if value.isValidChar then
          doubleQuotedFrom start stop (Char.ofNat value :: text) .none .none rest
        else .error (.inToken .badCodePoint start c.mark)
    | .none =>
      if c.isGap then doubleQuotedFrom start stop text (gap.addSpace c.char) .none rest
      else if c.endsLine then doubleQuotedFrom start stop text (gap.addBreak c.char) .none rest
      else if gap.endsLine && Cell.atMarker (c :: rest) then
        .error (.inToken .unexpectedMarker start c.mark)
      else if c.char == '"' then .ok ⟨String.ofList (gap.folded ++ text).reverse, rest, false⟩
      else if c.char == '\\' then
        doubleQuotedFrom start stop (gap.folded ++ text) .none .backslash rest
      else doubleQuotedFrom start stop (c.char :: (gap.folded ++ text)) .none .none rest

/-- A scalar in double quotes, after the first quote. -/
def doubleQuoted (start stop : Mark) (cs : List Cell) : Except Fault Scanned :=
  doubleQuotedFrom start stop [] .none .none cs

end Incognita.Yaml
