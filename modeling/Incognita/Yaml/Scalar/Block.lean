import Incognita.Yaml.Scalar

namespace Incognita.Yaml

/-!
# Yaml — scalars that are blocks of lines

The lines of such a scalar are indented, and their indentation is no part of the text.
Either all line breaks are kept, or those between two lines are folded into blanks as in
other scalars, unless one of the lines starts with a blank.

* `Chomp` — which line breaks behind the last line are kept;
* `Block.header` — the first line, which tells how to read the others;
* `Block` — what has been read of the lines;
* `block` — the scalar.
-/

/-- Which line breaks behind the last line are kept: none, the first one, or all. -/
inductive Chomp where
  | strip
  | clip
  | keep
  deriving DecidableEq, Repr

namespace Block

/-- The sign that tells which line breaks are kept, and what follows it. -/
def chomp : List Cell → Chomp × List Cell
  | [] => (.clip, [])
  | c :: rest =>
    if c.char == '+' then (.keep, rest)
    else if c.char == '-' then (.strip, rest)
    else (.clip, c :: rest)

/-- The digit that tells the indentation, zero when there is none, and what follows it. -/
def indentation (start : Mark) : List Cell → Except Fault (Nat × List Cell)
  | [] => .ok (0, [])
  | c :: rest =>
    if c.char == '0' then .error (.inToken .zeroIndentation start c.mark)
    else if c.char.isDigit then .ok (c.char.toNat - '0'.toNat, rest)
    else .ok (0, c :: rest)

/-- The first line of a block after its indicator: the sign and the digit in any order,
    and a comment. -/
def header (start : Mark) (cs : List Cell) : Except Fault (Chomp × Nat × List Cell) := do
  let (before, cs) := chomp cs
  let (digit, cs) ← indentation start cs
  let (after, cs) := if before == .clip && digit ≠ 0 then chomp cs else (before, cs)
  .ok (after, digit, ← lineRest start cs)

end Block

/-- What has been read of the lines of a block: its text, the line break behind the last
    line and those of the empty lines since, all of them the last character first, and
    whether the last line started with a blank. -/
structure Block where
  text : List Char := []
  lineEnd : Option Char := none
  empty : List Char := []
  startsBlank : Bool := false

namespace Block

/-- The block with one more empty line. -/
def addEmpty (b : Block) (c : Char) : Block := { b with empty := breakText c :: b.empty }

/-- The block with one more character. -/
def addChar (b : Block) (c : Char) : Block := { b with text := c :: b.text }

/-- The block with the end of a line. -/
def addEnd (b : Block) (c : Char) : Block := { b with lineEnd := some (breakText c) }

/-- The block in front of a line that starts with the character `c`. -/
def startLine (b : Block) (folded : Bool) (c : Char) : Block :=
  let fold := folded && !b.startsBlank && !isSpace c && b.lineEnd == some '\n'
  let between :=
    if !fold then b.empty ++ b.lineEnd.toList
    else if b.empty.isEmpty then [' ']
    else b.empty
  { text := between ++ b.text, startsBlank := isSpace c }

/-- The text of a block. -/
def result (b : Block) : Chomp → String
  | .strip => String.ofList b.text.reverse
  | .clip => String.ofList (b.lineEnd.toList ++ b.text).reverse
  | .keep => String.ofList (b.empty ++ b.lineEnd.toList ++ b.text).reverse

/-- The indentation of a block of which the first lines, those without words included,
    are indented by at most `deepest`. It is right of the block around it. -/
def found (outer : Int) (deepest : Nat) : Nat := max (max deepest (outer + 1).toNat) 1

/-- Reads lines indented by `indent`, which is zero as long as it is not known. In front
    of a line, `deepest` is the indentation of the deepest line since the last one with
    words; within a line there is none. -/
def read (start : Mark) (folded : Bool) (outer : Int) (indent : Nat) (deepest : Option Nat)
    (b : Block) : List Cell → Except Fault (Block × List Cell)
  | [] => .ok (b, [])
  | c :: rest =>
    match deepest with
    | none =>
      if c.endsLine then read start folded outer indent (some 0) (b.addEnd c.char) rest
      else read start folded outer indent none (b.addChar c.char) rest
    | some deepest =>
      let inside := indent == 0 || c.mark.column < indent
      let deepest := max deepest c.mark.column
      if inside && c.char == ' ' then
        read start folded outer indent (some deepest) b rest
      else if inside && c.char == '\t' then .error (.inToken .tabInBlock start c.mark)
      else if c.endsLine then
        read start folded outer indent (some deepest) (b.addEmpty c.char) rest
      else
        let indent := if indent == 0 then found outer deepest else indent
        if c.mark.column == indent then
          read start folded outer indent none ((b.startLine folded c.char).addChar c.char) rest
        else .ok (b, c :: rest)

end Block

/-- A scalar that is a block of lines, after its indicator. The block around it is
    indented by `outer`. -/
def block (folded : Bool) (outer : Int) (start : Mark) (cs : List Cell) :
    Except Fault Scanned := do
  let (chomp, digit, cs) ← Block.header start cs
  let indent := if digit == 0 then 0 else (max outer 0).toNat + digit
  let (b, rest) ← Block.read start folded outer indent (some 0) {} cs
  .ok ⟨b.result chomp, rest, true⟩

end Incognita.Yaml
