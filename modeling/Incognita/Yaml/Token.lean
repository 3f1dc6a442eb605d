import Incognita.Yaml.Cell

namespace Incognita.Yaml

/-!
# Yaml — tokens

The tokens make explicit what a document says by indentation: where a block of
entries starts and ends, and which scalars are keys.

* `Style` — how a scalar is written;
* `Token.Kind`, `Token` — the tokens.
-/

/-- How a scalar is written. What is not plain is in quotes or a block of lines. -/
inductive Style where
  | plain
  | quoted
  deriving DecidableEq, Repr, Inhabited

namespace Token

/-- The kinds of tokens. A tag is written as a handle, which stands for the start of the
    tag, and the rest of the tag; the handle is empty when the tag is written out. -/
inductive Kind where
  | streamEnd
  | version (major minor : Nat)
  | handle (name stem : String)
  | documentStart
  | documentEnd
  | blockSeqStart
  | blockMapStart
  | blockEnd
  | flowSeqStart
  | flowSeqEnd
  | flowMapStart
  | flowMapEnd
  | blockEntry
  | flowEntry
  | key
  | value
  | reference (name : String)
  | anchor (name : String)
  | tag (handle rest : String)
  | scalar (style : Style) (text : String)
  deriving DecidableEq, Repr, Inhabited

end Token

/-- A token with the place where it starts. -/
structure Token where
  kind : Token.Kind
  mark : Mark
  deriving DecidableEq, Repr, Inhabited

end Incognita.Yaml
