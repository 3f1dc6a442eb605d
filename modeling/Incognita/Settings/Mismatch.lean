import Incognita.Text.Quoted
import Incognita.Text.Utf8
import Incognita.Yaml.Merge

namespace Incognita.Settings

/-!
# Settings — documents that do not fit

* `Wanted` — what a part of a document is wanted for;
* `Mismatch` — a part of a document that does not fit, with its wording;
* `repeatedKeys` — the reports on keys of a mapping that occurred before;
* `misfit` — the report on a node that does not fit.
-/

/-- What a part of a document is wanted for. -/
inductive Wanted where
  | int
  | bool
  | text
  | settings
  deriving DecidableEq, Repr

/-- The name of what is wanted. -/
def Wanted.name : Wanted → String
  | int => "int"
  | bool => "bool"
  | text => "string"
  | settings => "config.Config"

/-- A part of a document that does not fit. -/
inductive Mismatch where
  | repeatedKey (line : Nat) (key : String) (first : Nat)
  | unknownKey (line : Nat) (key : String)
  | setTwice (line : Nat) (key : String)
  | wrongNode (line : Nat) (tag text : String) (wanted : Wanted)
  deriving DecidableEq, Repr

namespace Mismatch

/-- A text as it is shown in a report: of more than ten bytes only the first seven. -/
def excerpt (s : String) : String :=
  let bytes := s.toUTF8.toList
  if 10 < bytes.length then Text.Utf8.decode (bytes.take 7) ++ "..." else s

/-- How the text of a node is shown behind its tag. That of a collection with its own tag
    is not shown. -/
def shown (tag text : String) : String :=
  if tag == "!!seq" || tag == "!!map" then "" else " `" ++ excerpt text ++ "`"

/-- The wording of a mismatch. -/
def message : Mismatch → String
  | repeatedKey line key first =>
    "line " ++ Text.ofNat line ++ ": mapping key " ++ Text.quote key ++
      " already defined at line " ++ Text.ofNat first
  | unknownKey line key =>
    "line " ++ Text.ofNat line ++ ": field " ++ key ++ " not found in type " ++
      Wanted.settings.name
  | setTwice line key =>
    "line " ++ Text.ofNat line ++ ": field " ++ key ++ " already set in type " ++
      Wanted.settings.name
  | wrongNode line tag text wanted =>
    "line " ++ Text.ofNat line ++ ": cannot unmarshal " ++ tag ++ shown tag text ++ " into " ++
      wanted.name

end Mismatch

/-- The reports on the keys that occurred before. -/
def repeatedKeys (entries : Yaml.Entries) : List Mismatch :=
  (Yaml.repeated entries).map fun (first, again) =>
    .repeatedKey again.line again.scalarText first.line

/-- The report on a node that does not fit. A mapping with repeated keys is reported
    for these alone. -/
def misfit (wanted : Wanted) (n : Yaml.Node) : List Mismatch :=
  let report : Mismatch := .wrongNode n.line n.typeName n.scalarText wanted
  match n with
  | .map _ _ entries => if (repeatedKeys entries).isEmpty then [report] else repeatedKeys entries
  | _ => [report]

end Incognita.Settings
