import Incognita.Log
import Incognita.Text.Quoted

namespace Incognita.Log.Entry

/-!
# Log — entries as lines of text

How the logger writes an entry. Only the program as it is run needs the lines; what
is said about the log is said about its entries.

* `line` — an entry as a line of text.
-/

/-- Whether a character of a field needs no quotes around the field. -/
def isBare (c : Char) : Bool :=
  c.isAlphanum || c == '-' || c == '.' || c == '_' || c == '/' || c == '@' || c == '^' || c == '+'

/-- The value of a field in a line, quoted unless all its characters are bare. -/
def fieldValue (v : String) : String := if v.toList.all isBare then v else Text.quote v

/-- An entry as a line of text, made at the time `stamp`. -/
def line (stamp : String) (e : Entry) : Option String := do
  let message ← e.message
  let all := [("time", stamp), ("level", e.level.name), ("msg", fieldValue message)] ++
    e.fields.map fun (k, v) => (k, fieldValue v)
  some (" ".intercalate (all.map fun (k, v) => k ++ "=" ++ v) ++ "\n")

end Incognita.Log.Entry
