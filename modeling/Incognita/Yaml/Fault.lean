import Incognita.Text.Decimal
import Incognita.Yaml.Cell

namespace Incognita.Yaml

/-!
# Yaml — what can be wrong with a document

* `Problem` — what can be wrong with the words of a document, and with their order;
* `Fault` — why a text is no document, with its wording;
* `Flaw` — why a document that was read cannot be used, with its wording.
-/

/-- What can be wrong at a place of a document. -/
inductive Problem where
  | noToken
  | noColon
  | entryNotAllowed
  | keyNotAllowed
  | valueNotAllowed
  | tooDeep
  | tabIndentation
  | tabInBlock
  | zeroIndentation
  | noLineEnd
  | unexpectedEnd
  | unexpectedMarker
  | unknownEscape
  | badHexadecimal
  | badCodePoint
  | noDirectiveName
  | badDirectiveName
  | unknownDirective
  | noVersion
  | longVersion
  | noVersionPoint
  | noSpace
  | noSpaceOrLineEnd
  | noName
  | noTagMark
  | noTagEnd
  | noTagText
  | noOctet
  | badFirstOctet
  | badNextOctet
  | repeatedVersion
  | otherVersion
  | repeatedHandle
  | unknownHandle
  | noDocumentStart
  | noContent
  | noDash
  | noKey
  | noSeqEnd
  | noMapEnd
  deriving DecidableEq, Repr

/-- How deeply blocks, and how deeply brackets, may be nested. -/
def maxDepth : Nat := 10000

/-- The wording of a problem. -/
def Problem.message : Problem → String
  | noToken => "found character that cannot start any token"
  | noColon => "could not find expected ':'"
  | entryNotAllowed => "block sequence entries are not allowed in this context"
  | keyNotAllowed => "mapping keys are not allowed in this context"
  | valueNotAllowed => "mapping values are not allowed in this context"
  | tooDeep => "exceeded max depth of " ++ Text.ofNat maxDepth
  | tabIndentation => "found a tab character that violates indentation"
  | tabInBlock => "found a tab character where an indentation space is expected"
  | zeroIndentation => "found an indentation indicator equal to 0"
  | noLineEnd => "did not find expected comment or line break"
  | unexpectedEnd => "found unexpected end of stream"
  | unexpectedMarker => "found unexpected document indicator"
  | unknownEscape => "found unknown escape character"
  | badHexadecimal => "did not find expected hexdecimal number"
  | badCodePoint => "found invalid Unicode character escape code"
  | noDirectiveName => "could not find expected directive name"
  | badDirectiveName => "found unexpected non-alphabetical character"
  | unknownDirective => "found unknown directive name"
  | noVersion => "did not find expected version number"
  | longVersion => "found extremely long version number"
  | noVersionPoint => "did not find expected digit or '.' character"
  | noSpace => "did not find expected whitespace"
  | noSpaceOrLineEnd => "did not find expected whitespace or line break"
  | noName => "did not find expected alphabetic or numeric character"
  | noTagMark => "did not find expected '!'"
  | noTagEnd => "did not find the expected '>'"
  | noTagText => "did not find expected tag URI"
  | noOctet => "did not find URI escaped octet"
  | badFirstOctet => "found an incorrect leading UTF-8 octet"
  | badNextOctet => "found an incorrect trailing UTF-8 octet"
  | repeatedVersion => "found duplicate %YAML directive"
  | otherVersion => "found incompatible YAML document"
  | repeatedHandle => "found duplicate %TAG directive"
  | unknownHandle => "found undefined tag handle"
  | noDocumentStart => "did not find expected <document start>"
  | noContent => "did not find expected node content"
  | noDash => "did not find expected '-' indicator"
  | noKey => "did not find expected key"
  | noSeqEnd => "did not find expected ',' or ']'"
  | noMapEnd => "did not find expected ',' or '\x7d'"

/-- Why a text is no document: a problem in a token or in the order of tokens, with the
    place where what is being read started and the place where reading stopped; a
    character that is not allowed; or a reference to an anchor that does not come before. -/
inductive Fault where
  | inToken (problem : Problem) (context place : Mark)
  | inOrder (problem : Problem) (context place : Mark)
  | illegalCharacter
  | unknownAnchor (name : String)
  deriving DecidableEq, Repr

namespace Fault

/-- The line of what is being read or, when that is the first one, of the place
    where reading stopped. The first line itself is not reported. -/
def lineOf (context place : Mark) : Option Nat :=
  if context.line ≠ 0 then some context.line
  else if place.line ≠ 0 then some place.line
  else none

/-- The line that is reported, if there is one. Problems in a token are reported with
    lines counted from one, and those in the order of tokens with lines counted from
    zero. -/
def line? : Fault → Option Nat
  | inToken _ context place => (lineOf context place).map (· + 1)
  | inOrder _ context place => lineOf context place
  | illegalCharacter | unknownAnchor _ => none

/-- What is wrong, without its line. -/
def cause : Fault → String
  | inToken problem _ _ | inOrder problem _ _ => problem.message
  | illegalCharacter => "control characters are not allowed"
  | unknownAnchor name => "unknown anchor '" ++ name ++ "' referenced"

/-- The wording of a fault. -/
def message (f : Fault) : String :=
  match f.line? with
  | some n => "line " ++ Text.ofNat n ++ ": " ++ f.cause
  | none => f.cause

/-- Whether a fault was found at the given place. -/
def isAt (mark : Mark) : Fault → Bool
  | inToken _ _ place | inOrder _ _ place => place == mark
  | illegalCharacter | unknownAnchor _ => false

end Fault

/-- Why a document that was read cannot be used: a scalar of which the text has the type
    `found` but the tag wants another one, or is not the one that the tag `!!binary`
    wants, a merge key with something else than mappings, or a reference within the node
    that it stands for. -/
inductive Flaw where
  | wrongTag (found text tag : String)
  | badBinary
  | noMapping
  | selfContaining (name : String)
  deriving DecidableEq, Repr

/-- The wording of a flaw. -/
def Flaw.message : Flaw → String
  | wrongTag found text tag => "cannot decode " ++ found ++ " `" ++ text ++ "` as a " ++ tag
  | badBinary => "!!binary value contains invalid base64 data"
  | noMapping => "map merge requires map or sequence of maps as the value"
  | selfContaining name => "anchor '" ++ name ++ "' value contains itself"

end Incognita.Yaml
