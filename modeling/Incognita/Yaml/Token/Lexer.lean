import Incognita.Yaml.Property
import Incognita.Yaml.Scalar.Block

namespace Incognita.Yaml

/-!
# Yaml — finding the tokens

The entries of a block are known by their column, and a key only by the colon that
follows it on its line. So the lexer keeps the columns of the blocks that are open,
and for each open bracket the last place where a key may have started. When the
colon comes, the token for the key is put in front of what was read since.

Tokens are read only as they are asked for, and so is what is wrong with them. The
first token is known when two more have been read and it can no longer become part of
a key.

* `skipSpace` — what stands between tokens;
* `Lexer` — what has been read so far;
* `Lexer.token` — reads one token;
* `Lexer.peek`, `Lexer.advance` — the first token, and what comes after it;
* `Lexer.ofText` — the lexer in front of a text.
-/

/-- How many characters are looked at for a comment. -/
def commentReach : Nat := 512

/-- Whether the next thing after blanks and line breaks is a comment, which starts less
    than `commentReach` characters after the place `start`. -/
def commentFollows (start : Nat) : List Cell → Bool
  | [] => false
  | c :: rest =>
    c.mark.index < start + commentReach &&
      (c.char == '#' || ((c.isGap || c.char == '\n') && commentFollows start rest))

/-- What follows a comment on the same line, if one comes next. -/
def dropComment (cs : List Cell) : List Cell :=
  let rest := Cell.dropGaps cs
  if (cs.takeWhile Cell.isGap).length < commentReach && Cell.startsWith '#' rest then
    Cell.dropLine rest
  else cs

/-- Where one is between tokens. -/
inductive Between where
  | words
  | comment
  | comments
  deriving DecidableEq, Repr

/-- Skips blanks, line breaks and comments. A tab is no blank where a key may start, but
    between two comments everything is. The first result tells whether a key may start
    now. If the text is `marked`, the first character of each line is skipped. -/
def skipSpace (marked inFlow keyAllowed : Bool) (between : Between) :
    List Cell → Bool × List Cell
  | [] => (keyAllowed, [])
  | c :: rest =>
    match between with
    | .comments =>
      skipSpace marked inFlow keyAllowed (if c.char == '#' then .comment else .comments) rest
    | .comment =>
      if !c.endsLine then skipSpace marked inFlow keyAllowed .comment rest
      else if c.char == '\n' && commentFollows c.mark.index rest then
        skipSpace marked inFlow keyAllowed .comments rest
      else skipSpace marked inFlow (keyAllowed || !inFlow) .words rest
    | .words =>
      if marked && c.mark.column == 0 then skipSpace marked inFlow keyAllowed .words rest
      else if c.endsLine then skipSpace marked inFlow (keyAllowed || !inFlow) .words rest
      else if c.char == ' ' || (c.char == '\t' && (inFlow || !keyAllowed)) then
        skipSpace marked inFlow keyAllowed .words rest
      else if c.char == '#' then skipSpace marked inFlow keyAllowed .comment rest
      else (keyAllowed, c :: rest)

/-- A place where a key may have started: the number of the token there, whether it can
    still be a key, and whether nothing but a key can stand there. -/
structure Lexer.Key where
  possible : Bool := false
  required : Bool := false
  number : Nat := 0
  mark : Mark := {}
  deriving DecidableEq, Repr, Inhabited

/-- What has been read of a document. The column of the innermost block is `indent`,
    or -1 when no block is open, and those of the blocks around it are `outer`. The
    last places where a key may have started are `keys`, one outside of all brackets
    and one for each open bracket, and `waiting` gives the one that a token waits for.
    The tokens that were read and not taken are `queue`, and `taken` are those taken.
    If `cut`, the text goes on after `stop`, but cannot be read. -/
structure Lexer where
  rest : List Cell
  stop : Mark
  cut : Bool := false
  marked : Bool := false
  indent : Int := -1
  outer : List Int := []
  keyAllowed : Bool := true
  keys : Array Lexer.Key := #[{}]
  waiting : List (Nat × Nat) := []
  queue : Array Token := #[]
  taken : Nat := 0

namespace Lexer

/-- The place of the next character. -/
def mark (l : Lexer) : Mark := Cell.here l.stop l.rest

/-- Whether a bracket is open. -/
def inFlow (l : Lexer) : Bool := 1 < l.keys.size

/-- The lexer with one more token. -/
def push (l : Lexer) (kind : Token.Kind) (mark : Mark) : Lexer :=
  { l with queue := l.queue.push ⟨kind, mark⟩ }

/-- The lexer with one more token in front of the one with the given number, or behind
    all of them when that one is taken. -/
def insert (l : Lexer) (number : Nat) (kind : Token.Kind) (mark : Mark) : Lexer :=
  if number < l.taken then l.push kind mark
  else
    let i := number - l.taken
    { l with queue := l.queue.extract 0 i ++ #[⟨kind, mark⟩] ++ l.queue.extract i l.queue.size }

/-- The lexer with one more token, in front of the characters `rest` or the comment with
    which they start. -/
def word (l : Lexer) (kind : Token.Kind) (mark : Mark) (rest : List Cell) : Lexer :=
  { l.push kind mark with rest := dropComment rest }

/-- The lexer with one more token, which is the next character. -/
def sign (l : Lexer) (kind : Token.Kind) : Lexer := l.word kind l.mark (l.rest.drop 1)

/-- The lexer in front of its next token. -/
def toNext (l : Lexer) : Lexer :=
  let (keyAllowed, rest) := skipSpace l.marked l.inFlow l.keyAllowed .words l.rest
  { l with keyAllowed, rest }

/-- Closes the blocks that stand to the right of a column. -/
def closeFrom (column : Int) (mark : Mark) (l : Lexer) (indent : Int) : List Int → Lexer
  | [] => { l with indent, outer := [] }
  | i :: outer =>
    if column < indent then closeFrom column mark (l.push .blockEnd mark) i outer
    else { l with indent, outer := i :: outer }

/-- Closes the blocks that stand to the right of a column, unless a bracket is open. -/
def close (l : Lexer) (column : Int) (mark : Mark) : Lexer :=
  if l.inFlow then l else closeFrom column mark l l.indent l.outer

/-- The last place where a key may have started. -/
def key (l : Lexer) : Key := l.keys.back?.getD {}

/-- The lexer with another place for the last key. -/
def setKey (l : Lexer) (k : Key) : Lexer := { l with keys := l.keys.pop.push k }

/-- The lexer in which the token with the given number waits for no key. -/
def release (l : Lexer) (number : Nat) : Lexer :=
  { l with waiting := l.waiting.filter fun w => w.1 ≠ number }

/-- Opens a block at a column to the right of the innermost one, with a token in front
    of the one with the given number. -/
def openBlock (l : Lexer) (mark : Mark) (number : Nat) (kind : Token.Kind) :
    Except Fault Lexer :=
  if l.inFlow || mark.column ≤ l.indent then .ok l
  else if maxDepth ≤ l.outer.length then .error (.inToken .tooDeep l.key.mark l.mark)
  else .ok { l.insert number kind mark with indent := mark.column, outer := l.indent :: l.outer }

/-- The number of the next token. -/
def next (l : Lexer) : Nat := l.taken + l.queue.size

/-- The fault of a place where only a key could stand. -/
def noColon (l : Lexer) (k : Key) : Fault := .inToken .noColon k.mark l.mark

/-- Forgets the last place where a key may have started. -/
def dropKey (l : Lexer) : Except Fault Lexer :=
  let k := l.key
  if !k.possible then .ok l
  else if k.required then .error (l.noColon k)
  else .ok ((l.setKey { k with possible := false }).release k.number)

/-- Notes that a key may start here, if it may. -/
def saveKey (l : Lexer) : Except Fault Lexer :=
  if l.keyAllowed then do
    let required := !l.inFlow && l.indent == l.mark.column
    let k : Key := ⟨true, required, l.next, l.mark⟩
    let l ← l.dropKey
    .ok { l.setKey k with waiting := (k.number, l.keys.size - 1) :: l.waiting }
  else .ok l

/-- How far a colon may be from the start of its key. -/
def keyReach : Nat := 1024

/-- Whether the last key of a level may still be one: it is on this line and not too far
    away. Otherwise it is given up. -/
def checkKey (l : Lexer) (level : Nat) : Except Fault (Bool × Lexer) :=
  match l.keys[level]? with
  | none => .ok (false, l)
  | some k =>
    if !k.possible then .ok (false, l)
    else if k.mark.line < l.mark.line || k.mark.index + keyReach < l.mark.index then
      if k.required then .error (l.noColon k)
      else .ok (false, { l with keys := l.keys.setIfInBounds level { k with possible := false } })
    else .ok (true, l)

/-- Reads a marker between documents. -/
def marker (l : Lexer) (kind : Token.Kind) : Except Fault Lexer := do
  let mark := l.mark
  let l ← (l.close (-1) mark).dropKey
  .ok { l.push kind mark with keyAllowed := false, rest := l.rest.drop 3 }

/-- Reads a directive. -/
def directive (l : Lexer) : Except Fault Lexer := do
  let mark := l.mark
  let l ← (l.close (-1) mark).dropKey
  let (kind, rest) ← Property.directive mark l.stop (l.rest.drop 1)
  .ok { l.push kind mark with keyAllowed := false, rest }

/-- Reads an opening bracket. -/
def openBracket (l : Lexer) (kind : Token.Kind) : Except Fault Lexer := do
  let l ← l.saveKey
  if maxDepth < l.keys.size then .error (.inToken .tooDeep l.mark l.mark)
  let inner : Key := { number := l.next, mark := l.mark }
  .ok ({ l with keys := l.keys.push inner, keyAllowed := true }.sign kind)

/-- Reads a closing bracket. -/
def closeBracket (l : Lexer) (kind : Token.Kind) : Except Fault Lexer := do
  let l ← l.dropKey
  let l := if l.inFlow then { l.release l.key.number with keys := l.keys.pop } else l
  .ok ({ l with keyAllowed := false }.sign kind)

/-- Reads a comma. -/
def comma (l : Lexer) : Except Fault Lexer := do
  let l ← l.dropKey
  .ok ({ l with keyAllowed := true }.sign .flowEntry)

/-- Reads the dash of an entry. A comment behind it belongs to the entry. -/
def dash (l : Lexer) : Except Fault Lexer := do
  if !l.inFlow && !l.keyAllowed then .error (.inToken .entryNotAllowed l.mark l.mark)
  let l ← (← l.openBlock l.mark l.next .blockSeqStart).dropKey
  .ok { l.push .blockEntry l.mark with keyAllowed := true, rest := l.rest.drop 1 }

/-- Reads the question mark of a key. -/
def question (l : Lexer) : Except Fault Lexer := do
  if !l.inFlow && !l.keyAllowed then .error (.inToken .keyNotAllowed l.mark l.mark)
  let l ← (← l.openBlock l.mark l.next .blockMapStart).dropKey
  .ok ({ l with keyAllowed := !l.inFlow }.sign .key)

/-- Reads the colon of a value. -/
def colon (l : Lexer) : Except Fault Lexer := do
  let (isKey, l) ← l.checkKey (l.keys.size - 1)
  if isKey then
    let k := l.key
    let l ← (l.insert k.number .key k.mark).openBlock k.mark k.number .blockMapStart
    let l := (l.setKey { k with possible := false }).release k.number
    .ok ({ l with keyAllowed := false }.sign .value)
  else
    if !l.inFlow && !l.keyAllowed then .error (.inToken .valueNotAllowed l.mark l.mark)
    let l ← l.openBlock l.mark l.next .blockMapStart
    .ok ({ l with keyAllowed := !l.inFlow }.sign .value)

/-- Reads the anchor of a node, or a reference to one. -/
def anchor (l : Lexer) (kind : String → Token.Kind) : Except Fault Lexer := do
  let l ← l.saveKey
  let (name, rest) ← Property.anchor l.mark l.stop (l.rest.drop 1)
  .ok ({ l with keyAllowed := false }.word (kind name) l.mark rest)

/-- Reads the tag of a node. -/
def tag (l : Lexer) : Except Fault Lexer := do
  let l ← l.saveKey
  let (kind, rest) ← Property.tag l.mark l.stop l.rest
  .ok ({ l with keyAllowed := false }.word kind l.mark rest)

/-- Adds a scalar that was read. After its last line a key may start. -/
def addScalar (l : Lexer) (style : Style) (s : Scanned) : Lexer :=
  let rest := if s.endsLine then s.rest else dropComment s.rest
  { l.push (.scalar style s.text) l.mark with rest, keyAllowed := s.endsLine }

/-- Reads a scalar with a function that finds its end. -/
def scalar (l : Lexer) (style : Style) (read : Lexer → Except Fault Scanned) :
    Except Fault Lexer := do
  let l ← l.saveKey
  .ok (l.addScalar style (← read l))

/-- Reads a scalar that is a block of lines, which is no key. -/
def blockScalar (l : Lexer) (folded : Bool) : Except Fault Lexer := do
  let l ← l.dropKey
  .ok (l.addScalar .quoted (← block folded l.indent l.mark (l.rest.drop 1)))

/-- Whether a scalar without quotes can start with these characters. -/
def startsPlain (inFlow : Bool) : List Cell → Bool
  | [] => false
  | c :: rest =>
    if c.char == '-' then !Cell.endsWord rest
    else if c.char == '?' || c.char == ':' then !inFlow && !Cell.endsWord rest
    else !c.isGap && !c.endsLine && !",[]\x7b\x7d#&*!|>'\"%@`".toList.contains c.char

/-- Reads one token, which starts with the next character. -/
def token (l : Lexer) (c : Cell) (rest : List Cell) : Except Fault Lexer :=
  if c.char == '%' && c.mark.column == 0 then l.directive
  else if Cell.startsMarker '-' l.rest then l.marker .documentStart
  else if Cell.startsMarker '.' l.rest then l.marker .documentEnd
  else if c.char == '[' then l.openBracket .flowSeqStart
  else if c.char == '\x7b' then l.openBracket .flowMapStart
  else if c.char == ']' then l.closeBracket .flowSeqEnd
  else if c.char == '\x7d' then l.closeBracket .flowMapEnd
  else if c.char == ',' then l.comma
  else if c.char == '-' && Cell.endsWord rest then l.dash
  else if c.char == '?' && (l.inFlow || Cell.endsWord rest) then l.question
  else if c.char == ':' && (l.inFlow || Cell.endsWord rest) then l.colon
  else if c.char == '*' then l.anchor .reference
  else if c.char == '&' then l.anchor .anchor
  else if c.char == '!' then l.tag
  else if c.char == '|' && !l.inFlow then l.blockScalar false
  else if c.char == '>' && !l.inFlow then l.blockScalar true
  else if c.char == '\'' then l.scalar .quoted fun l => singleQuoted l.mark l.stop rest
  else if c.char == '"' then l.scalar .quoted fun l => doubleQuoted l.mark l.stop rest
  else if startsPlain l.inFlow l.rest then
    l.scalar .plain fun l => plain l.inFlow (l.indent + 1).toNat l.mark l.rest
  else .error (.inToken .noToken l.mark l.mark)

/-- The lexer in front of its next token, without the blocks that end there. -/
def ready (l : Lexer) : Lexer :=
  let next := l.toNext
  next.close next.mark.column l.mark

/-- Closes everything at the end of the document. -/
def finish (l : Lexer) : Except Fault Lexer := do
  let stop : Mark := if l.stop.column == 0 then l.stop else ⟨l.stop.index, l.stop.line + 1, 0⟩
  let l ← ({ l with stop }.close (-1) stop).dropKey
  .ok { l.push .streamEnd stop with keyAllowed := false }

/-- What was read, unless it hangs on characters that cannot be read. -/
def unlessCut (l : Lexer) (read : Except Fault Lexer) : Except Fault Lexer :=
  if !l.cut then read
  else
    match read with
    | .ok after => if after.rest.isEmpty then .error .illegalCharacter else .ok after
    | .error f => .error (if f.isAt l.stop then .illegalCharacter else f)

/-- Reads the next token. -/
def fetch (l : Lexer) : Except Fault Lexer :=
  let l := l.ready
  match l.rest with
  | [] => if l.cut then .error .illegalCharacter else l.finish
  | c :: rest => l.unlessCut (l.token c rest)

/-- How many tokens are read before the first one is known. -/
def lookahead : Nat := 3

/-- Whether more tokens have to be read before the first one is known. -/
def wantsMore (l : Lexer) : Except Fault (Bool × Lexer) :=
  if l.queue.size < lookahead then .ok (true, l)
  else
    match l.waiting.lookup l.taken with
    | none => .ok (false, l)
    | some level => l.checkKey level

/-- Reads tokens until the first one is known, with a bound on their number. -/
def fill (l : Lexer) : Nat → Except Fault Lexer
  | 0 => .ok l
  | n + 1 => do
    let (more, l) ← l.wantsMore
    if more then (← l.fetch).fill n else .ok l

/-- The first token. Each token that has to be read takes a character or comes at the
    end, where no key is waited for, so that the number of characters bounds them. -/
def peek (l : Lexer) : Except Fault (Token × Lexer) := do
  let l ← l.fill (l.stop.index + lookahead)
  .ok (l.queue[0]?.getD ⟨.streamEnd, l.stop⟩, l)

/-- The lexer without its first token, which waits for no key any more. -/
def advance (l : Lexer) : Lexer :=
  { l.release l.taken with queue := l.queue.extract 1 l.queue.size, taken := l.taken + 1 }

/-- The lexer in front of a text. A byte order mark is no part of the text. One more of
    them makes every line start with a mark. -/
def ofText (text : String) : Lexer :=
  let (cs, cut) := readable text.toList
  let cs := if cs.head? == some '\uFEFF' then cs.drop 1 else cs
  let (rest, stop) := cells cs
  { rest, stop, cut, marked := cs.head? == some '\uFEFF' }

end Lexer

end Incognita.Yaml
