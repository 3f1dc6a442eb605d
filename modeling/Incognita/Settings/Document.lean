import Incognita.Settings
import Incognita.Settings.Mismatch
import Incognita.Text.Blank
import Incognita.Yaml.Node.Parser

namespace Incognita.Settings

open Incognita.Yaml (Datum Document Flaw)

/-!
# Settings — the document they are written in

The settings are a mapping from their names to scalars. What is left out, or written
as null, keeps its default. A merge key adds the entries of other mappings, of which
each gives only names that did not occur before.

* `wholeOf?`, `truthOf?`, `textOf` — a scalar as a number, a truth value and a text;
* `Found`, `readScalar` — what a node gives where a scalar is wanted;
* `Field` — the settings by their names;
* `Draft` — the settings and the mismatches so far;
* `ofDocument` — the settings of a document;
* `DocumentFault`, `ofText` — the settings of a text.
-/

/-- The least whole number of 64 bits, for which also those stand that are too small. -/
def leastWhole : Int := -Int.pow 2 63

/-- A scalar as a whole number of 64 bits. Fractions are cut off. -/
def wholeOf? : Datum → Option Int
  | .int n => if n < Int.pow 2 63 then some n else none
  | .float (.finite n) =>
    if Int.pow 2 63 < n then none
    else some (if leastWhole ≤ n && n < Int.pow 2 63 then n else leastWhole)
  | .float (.infinite true) => some leastWhole
  | _ => none

/-- A scalar as a truth value. Besides those of the format, some words are known. -/
def truthOf? : Datum → Option Bool
  | .bool b => some b
  | .text "y" | .text "Y" | .text "yes" | .text "Yes" | .text "YES"
  | .text "on" | .text "On" | .text "ON" => some true
  | .text "n" | .text "N" | .text "no" | .text "No" | .text "NO"
  | .text "off" | .text "Off" | .text "OFF" => some false
  | _ => none

/-- A scalar as a text: what is not a text is taken as it is written. -/
def textOf (written : String) : Datum → String
  | .text s => s
  | _ => written

/-- What a node gives where a scalar is wanted. Null gives nothing. -/
inductive Found (α : Type) where
  | nothing
  | value (a : α)
  | misfit (mismatches : List Mismatch)

/-- What is found, after a function. -/
def Found.map {α β : Type} (f : α → β) : Found α → Found β
  | nothing => .nothing
  | value a => .value (f a)
  | misfit ms => .misfit ms

/-- What `read` makes of the text and the datum of a scalar. -/
def readScalar {α : Type} (doc : Document) (wanted : Wanted) (read : String → Datum → Option α)
    (n : Yaml.Node) : Except Flaw (Found α) :=
  match doc.resolve n with
  | .scalar line tag style text => do
    match ← Datum.ofScalar tag style text with
    | .null => .ok .nothing
    | d =>
      match read text d with
      | some a => .ok (.value a)
      | none => .ok (.misfit (misfit wanted (.scalar line tag style text)))
  | n => .ok (.misfit (misfit wanted n))

/-- The settings that a document can give. -/
inductive Field where
  | maxDepth
  | logLevel
  | color
  | historyFile
  deriving DecidableEq, Repr

namespace Field

/-- The setting with the given name. -/
def ofName? : String → Option Field
  | "max_depth" => some .maxDepth
  | "log_level" => some .logLevel
  | "color" => some .color
  | "history_file" => some .historyFile
  | _ => none

/-- The settings with the value of a node for one of them. -/
def read (doc : Document) (s : Settings) (n : Yaml.Node) :
    Field → Except Flaw (Found Settings)
  | maxDepth => do
    let found ← readScalar doc .int (fun _ => wholeOf?) n
    .ok (found.map fun v => { s with maxDepth := v })
  | logLevel => do
    let found ← readScalar doc .text (fun text d => some (textOf text d)) n
    .ok (found.map fun v => { s with logLevel := v })
  | color => do
    let found ← readScalar doc .bool (fun _ => truthOf?) n
    .ok (found.map fun v => { s with color := v })
  | historyFile => do
    let found ← readScalar doc .text (fun text d => some (textOf text d)) n
    .ok (found.map fun v => { s with historyFile := v })

end Field

/-- The settings and the mismatches so far, and the names that occurred. -/
structure Draft where
  settings : Settings := default
  mismatches : List Mismatch := []
  names : List String := []

namespace Draft

/-- The draft with more mismatches. -/
def report (d : Draft) (ms : List Mismatch) : Draft := { d with mismatches := d.mismatches ++ ms }

/-- The draft with the settings that were found. -/
def update (d : Draft) : Found Settings → Draft
  | .nothing => d
  | .value settings => { d with settings }
  | .misfit ms => d.report ms

/-- The name that a key gives, and whether the key is a text. -/
def nameOf (text : String) (d : Datum) : String × Bool :=
  match d with
  | .text s => (s, true)
  | _ => (text, false)

/-- The draft after one more entry. A key that is null is passed over. Of an entry that
    was `merged` the name must not have occurred. Of the names in the mapping itself,
    only texts count as those. -/
def addEntry (doc : Document) (merged : Bool) (d : Draft) (entry : Yaml.Node × Yaml.Node) :
    Except Flaw Draft := do
  let (key, value) := entry
  if key.isMerge then return d
  match ← readScalar doc .text (fun text d => some (nameOf text d)) key with
  | .nothing => .ok d
  | .misfit ms => .ok (d.report ms)
  | .value (name, isText) =>
    let occurred := d.names.contains name
    if merged && occurred then return d
    let d := if merged || isText then { d with names := name :: d.names } else d
    match Field.ofName? name with
    | none => .ok (d.report [.unknownKey key.line name])
    | some field =>
      if occurred then .ok (d.report [.setTwice key.line name])
      else .ok (d.update (← field.read doc d.settings value))

/-- The draft after the entries of one more mapping. One with repeated keys gives nothing
    else. -/
def addEntries (doc : Document) (merged : Bool) (d : Draft) (entries : Yaml.Entries) :
    Except Flaw Draft :=
  match repeatedKeys entries with
  | [] => entries.foldlM (addEntry doc merged) d
  | ms => .ok (d.report ms)

/-- The draft of a mapping with the mappings that go into it. -/
def ofEntries (doc : Document) (entries : Yaml.Entries) : Except Flaw Draft :=
  match doc.layers entries with
  | [] => .ok {}
  | own :: others => do
    let d ← addEntries doc false {} (← own)
    others.foldlM (fun d layer => do addEntries doc true d (← layer)) d

end Draft

/-- Why a text gives no settings. -/
inductive DocumentFault where
  | malformed (fault : Yaml.Fault)
  | flawed (flaw : Flaw)
  | mismatched (mismatches : List Mismatch)
  deriving DecidableEq, Repr

/-- The wording of a fault in a document. -/
def DocumentFault.message : DocumentFault → String
  | malformed f => "yaml: " ++ f.message
  | flawed f => "yaml: " ++ f.message
  | mismatched ms =>
    "yaml: unmarshal errors:\n  " ++ "\n  ".intercalate (ms.map Mismatch.message)

/-- The level without the blanks around it, or the default one when nothing is left. -/
def trimLevel (s : Settings) : Settings :=
  let level := Text.trim s.logLevel
  { s with logLevel := if level.isEmpty then default.logLevel else level }

/-- The draft of a document. One that is null gives no settings. -/
def draft (doc : Document) : Except Flaw Draft :=
  match doc.root with
  | .map _ _ entries => Draft.ofEntries doc entries
  | root => do
    let found ← readScalar doc .settings (fun _ _ => none) root
    .ok (({} : Draft).update found)

/-- The settings of a document, if there is one. -/
def ofDocument : Option Document → Except DocumentFault Settings
  | none => .ok default.trimLevel
  | some doc => do
    let d ← (draft doc).mapError .flawed
    if d.mismatches.isEmpty then .ok d.settings.trimLevel else .error (.mismatched d.mismatches)

/-- The settings of a text. -/
def ofText (text : String) : Except DocumentFault Settings := do
  ofDocument (← (Yaml.parse text).mapError .malformed)

end Incognita.Settings
