import Incognita.Text.Utf8
import Incognita.Yaml.Scalar
import Incognita.Yaml.Token

namespace Incognita.Yaml.Property

/-!
# Yaml — anchors, tags and directives

A node can have a name, its anchor, and a type, its tag. A tag is long, so that it is
mostly written with a handle that a directive defines.

* `anchor` — the name of an anchor;
* `uri` — the text of a tag, in which bytes may be written as `%` and two digits;
* `tagHandle`, `tag` — handles and tags;
* `directive` — the lines in front of a document that tell its version and its handles.

All of them give what they read and what follows it.
-/

/-- The characters of names. -/
def isNameChar (c : Char) : Bool := c.isAlphanum || c == '_' || c == '-'

/-- The longest name here, and what follows it. -/
def splitName (cs : List Cell) : String × List Cell :=
  (Cell.text (cs.takeWhile fun c => isNameChar c.char), cs.dropWhile fun c => isNameChar c.char)

/-- Whether the name of an anchor can end in front of these characters. -/
def endsName (cs : List Cell) : Bool :=
  Cell.endsWord cs || cs.head?.any fun c => "?:,]\x7d%@`".toList.contains c.char

/-- The name of an anchor. -/
def anchor (start stop : Mark) (cs : List Cell) : Except Fault (String × List Cell) :=
  let (name, rest) := splitName cs
  if name.isEmpty || !endsName rest then .error (.inToken .noName start (Cell.here stop rest))
  else .ok (name, rest)

/-- The characters that stand for themselves in a tag. -/
def isUriChar (c : Char) : Bool := isNameChar c || ";/?:@&=+$,.!~*'()[]".toList.contains c

/-- How many bytes a character has that starts with the byte `b`, if one can. -/
def lengthOf? (b : Nat) : Option Nat :=
  if b < 0x80 then some 1
  else if b < 0xC0 then none
  else if b < 0xE0 then some 2
  else if b < 0xF0 then some 3
  else if b < 0xF8 then some 4
  else none

/-- The byte that a `%` and two hexadecimal digits stand for, and what follows them. -/
def octet? : List Cell → Option (Nat × List Cell)
  | p :: a :: b :: rest =>
    if p.char == '%' then do some (16 * (← hexValue? a.char) + (← hexValue? b.char), rest)
    else none
  | _ => none

/-- The bytes of a tag after `bytes`, the last one first, when the last character still
    lacks `missing` of its bytes. The first argument bounds the number of bytes. -/
def uriFrom (start stop : Mark) (bytes : List UInt8) (missing : Nat) (cs : List Cell) :
    Nat → Except Fault (List UInt8 × List Cell)
  | 0 => .ok (bytes.reverse, cs)
  | n + 1 =>
    let fail problem := .error (.inToken problem start (Cell.here stop cs))
    if missing ≠ 0 || Cell.startsWith '%' cs then
      match octet? cs with
      | none => fail .noOctet
      | some (b, rest) =>
        if missing ≠ 0 then
          if b / 64 ≠ 2 then fail .badNextOctet
          else uriFrom start stop (b.toUInt8 :: bytes) (missing - 1) rest n
        else
          match lengthOf? b with
          | none => fail .badFirstOctet
          | some k => uriFrom start stop (b.toUInt8 :: bytes) (k - 1) rest n
    else
      match cs with
      | c :: rest =>
        if isUriChar c.char then uriFrom start stop (c.char.toNat.toUInt8 :: bytes) 0 rest n
        else .ok (bytes.reverse, cs)
      | [] => .ok (bytes.reverse, cs)

/-- The text of a tag, which may be empty. -/
def uri (start stop : Mark) (cs : List Cell) : Except Fault (String × List Cell) := do
  let (bytes, rest) ← uriFrom start stop [] 0 cs (cs.length + 1)
  .ok (Text.Utf8.decode bytes, rest)

/-- The text of a tag, which is not empty. -/
def someUri (start stop : Mark) (cs : List Cell) : Except Fault (String × List Cell) := do
  let (text, rest) ← uri start stop cs
  if text.isEmpty then .error (.inToken .noTagText start (Cell.here stop rest))
  else .ok (text, rest)

/-- A handle: an exclamation mark, a name and a second exclamation mark. Where it may be
    the start of a tag, the second one can be missing. -/
def tagHandle (start stop : Mark) (cs : List Cell) : Except Fault (String × List Cell) :=
  if Cell.startsWith '!' cs then
    let (name, rest) := splitName (cs.drop 1)
    .ok (if Cell.startsWith '!' rest then ("!" ++ name ++ "!", rest.drop 1)
      else ("!" ++ name, rest))
  else .error (.inToken .noTagMark start (Cell.here stop cs))

/-- Whether what was read as a handle is one with two exclamation marks. -/
def isHandle (handle : String) : Bool := 1 < handle.length && handle.endsWith "!"

/-- A tag, without a look at what follows it. -/
def openTag (start stop : Mark) (cs : List Cell) : Except Fault (Token.Kind × List Cell) := do
  if Cell.startsWith '<' (cs.drop 1) then
    let (text, rest) ← someUri start stop (cs.drop 2)
    if Cell.startsWith '>' rest then .ok (.tag "" text, rest.drop 1)
    else .error (.inToken .noTagEnd start (Cell.here stop rest))
  else
    let (handle, rest) ← tagHandle start stop cs
    if isHandle handle then
      let (text, rest) ← someUri start stop rest
      .ok (.tag handle text, rest)
    else
      let (text, rest) ← uri start stop rest
      let text := (handle.drop 1).toString ++ text
      .ok (if text.isEmpty then .tag "" "!" else .tag "!" text, rest)

/-- A tag, which ends where a word can end. -/
def tag (start stop : Mark) (cs : List Cell) : Except Fault (Token.Kind × List Cell) := do
  let (kind, rest) ← openTag start stop cs
  if Cell.endsWord rest then .ok (kind, rest)
  else .error (.inToken .noSpaceOrLineEnd start (Cell.here stop rest))

/-- A part of the number of a version, which has at most two digits. -/
def versionPart (start stop : Mark) (cs : List Cell) : Except Fault (Nat × List Cell) :=
  let digits := cs.takeWhile fun c => c.char.isDigit
  if 2 < digits.length then .error (.inToken .longVersion start (Cell.here stop cs))
  else if digits.isEmpty then .error (.inToken .noVersion start (Cell.here stop cs))
  else .ok (Text.natOfDigits (digits.map Cell.char), cs.drop digits.length)

/-- The number of a version. -/
def version (start stop : Mark) (cs : List Cell) : Except Fault (Token.Kind × List Cell) := do
  let (major, rest) ← versionPart start stop (Cell.dropGaps cs)
  if Cell.startsWith '.' rest then
    let (minor, rest) ← versionPart start stop (rest.drop 1)
    .ok (.version major minor, rest)
  else .error (.inToken .noVersionPoint start (Cell.here stop rest))

/-- The definition of a handle. -/
def handleDefinition (start stop : Mark) (cs : List Cell) :
    Except Fault (Token.Kind × List Cell) := do
  let (handle, rest) ← tagHandle start stop (Cell.dropGaps cs)
  if !isHandle handle && handle ≠ "!" then
    .error (.inToken .noTagMark start (Cell.here stop rest))
  match rest with
  | c :: _ =>
    if !c.isGap then .error (.inToken .noSpace start c.mark)
  | [] => .error (.inToken .noSpace start stop)
  let (stem, rest) ← someUri start stop (Cell.dropGaps rest)
  if Cell.endsWord rest then .ok (.handle handle stem, rest)
  else .error (.inToken .noSpaceOrLineEnd start (Cell.here stop rest))

/-- A directive, after its percent sign. It takes the whole line. -/
def directive (start stop : Mark) (cs : List Cell) : Except Fault (Token.Kind × List Cell) := do
  let (name, rest) := splitName cs
  if name.isEmpty then .error (.inToken .noDirectiveName start (Cell.here stop rest))
  if !Cell.endsWord rest then .error (.inToken .badDirectiveName start (Cell.here stop rest))
  let (kind, rest) ←
    match name with
    | "YAML" => version start stop rest
    | "TAG" => handleDefinition start stop rest
    | _ => .error (.inToken .unknownDirective start (Cell.here stop rest))
  .ok (kind, ← lineRest start rest)

end Incognita.Yaml.Property
