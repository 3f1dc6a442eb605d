namespace Incognita.Yaml

/-!
# Yaml — the characters of a document and where they stand

* `Mark` — a place in a document;
* `Cell` — a character with its place;
* `isLegal` — the characters that a document may contain;
* `readable` — the characters in front of the first piece of a text that contains an
  illegal one;
* `cells` — the characters of a document with their places, and the place after the
  last one.
-/

/-- A place in a document: how many characters come before it, and its line and column,
    all counted from zero. -/
structure Mark where
  index : Nat := 0
  line : Nat := 0
  column : Nat := 0
  deriving DecidableEq, Repr, Inhabited

/-- A character with its place. -/
structure Cell where
  char : Char
  mark : Mark
  deriving DecidableEq, Repr

/-- The characters that may stand in a document: all but U+FFFE, U+FFFF and the
    control characters that are neither tabs nor line breaks. -/
def isLegal (c : Char) : Bool :=
  let n := c.toNat
  n == 0x9 || n == 0xA || n == 0xD || (0x20 ≤ n && n ≤ 0x7E) || n == 0x85 ||
    (0xA0 ≤ n && n ≤ 0xFFFD) || 0x10000 ≤ n

/-- How many bytes of a text are read at once. -/
def pieceSize : Nat := 512

/-- The characters that can be read when the text is taken in pieces, and whether these
    are not all: a piece with an illegal character cannot be read. The characters in
    front of the piece are `before` and those of the piece `piece`, the last one first,
    and `left` bytes of the piece are not used yet. -/
def readableFrom (before piece : List Char) (left : Nat) : List Char → List Char × Bool
  | [] => ((piece ++ before).reverse, false)
  | c :: cs =>
    if left < c.utf8Size then
      if isLegal c then readableFrom (piece ++ before) [c] (pieceSize - c.utf8Size) cs
      else ((piece ++ before).reverse, true)
    else if isLegal c then readableFrom before (c :: piece) (left - c.utf8Size) cs
    else (before.reverse, true)

/-- The characters that can be read of a text, and whether these are not all. -/
def readable (cs : List Char) : List Char × Bool := readableFrom [] [] pieceSize cs

/-- The characters that end a line. -/
def isBreak (c : Char) : Bool :=
  c == '\n' || c == '\u0085' || c == '\u2028' || c == '\u2029'

/-- The characters that separate words. -/
def isSpace (c : Char) : Bool := c == ' ' || c == '\t'

/-- The place after the character `c` at the place `m`. -/
def Mark.after (m : Mark) (c : Char) : Mark :=
  if isBreak c then ⟨m.index + 1, m.line + 1, 0⟩ else ⟨m.index + 1, m.line, m.column + 1⟩

/-- The characters after `before`, the last one first, with their places, when the first
    one stands at `m`. -/
def cellsFrom (before : List Cell) (m : Mark) : List Char → List Cell × Mark
  | [] => (before.reverse, m)
  | '\r' :: '\n' :: cs => cellsFrom (⟨'\n', m⟩ :: before) ⟨m.index + 2, m.line + 1, 0⟩ cs
  | c :: cs =>
    let c := if c == '\r' then '\n' else c
    cellsFrom (⟨c, m⟩ :: before) (m.after c) cs

/-- Characters with their places, and the place after the last one. A carriage return is
    read as a line feed, and with a line feed behind it as one character. -/
def cells (cs : List Char) : List Cell × Mark := cellsFrom [] {} cs

namespace Cell

/-- Whether a cell ends a line. -/
def endsLine (c : Cell) : Bool := isBreak c.char

/-- Whether a cell separates words of a line. -/
def isGap (c : Cell) : Bool := isSpace c.char

/-- Whether no word goes on here: at the end, at a gap or at the end of a line. -/
def endsWord : List Cell → Bool
  | [] => true
  | c :: _ => c.isGap || c.endsLine

/-- Whether the character `ch` comes next. -/
def startsWith (ch : Char) : List Cell → Bool
  | [] => false
  | c :: _ => c.char == ch

/-- Whether a line starts here with three times the character `ch` as a word. -/
def startsMarker (ch : Char) : List Cell → Bool
  | a :: b :: c :: rest =>
    a.mark.column == 0 && a.char == ch && b.char == ch && c.char == ch && endsWord rest
  | _ => false

/-- Whether one document ends or another one starts here. -/
def atMarker (cs : List Cell) : Bool := startsMarker '-' cs || startsMarker '.' cs

/-- The place of the next character, where the text stops at `stop`. -/
def here (stop : Mark) : List Cell → Mark
  | [] => stop
  | c :: _ => c.mark

/-- What follows the blanks of a line. -/
def dropGaps (cs : List Cell) : List Cell := cs.dropWhile isGap

/-- What follows a line, from its end on. -/
def dropLine (cs : List Cell) : List Cell := cs.dropWhile fun c => !c.endsLine

/-- The text of cells. -/
def text (cs : List Cell) : String := String.ofList (cs.map char)

end Cell

end Incognita.Yaml
