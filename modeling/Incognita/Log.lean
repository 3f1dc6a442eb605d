import Incognita.Store

namespace Incognita

/-!
# Log — what is noted down while programs run

* `Log.Level` — how grave an entry is, and how much is to be shown;
* `Log.Level.ofName?` — a level by its name, in any case;
* `Log.Entry` — the entries, with their level, message and fields;
* `Log.shown` — the entries that a level lets through.
-/

namespace Log

/-- How grave an entry is, the gravest first. -/
inductive Level where
  | panic
  | fatal
  | error
  | warning
  | info
  | debug
  | trace
  deriving DecidableEq, Repr, Inhabited

namespace Level

/-- The name of a level. -/
def name : Level → String
  | panic => "panic"
  | fatal => "fatal"
  | error => "error"
  | warning => "warning"
  | info => "info"
  | debug => "debug"
  | trace => "trace"

/-- How far a level is from the gravest one. -/
def rank : Level → Nat
  | panic => 0
  | fatal => 1
  | error => 2
  | warning => 3
  | info => 4
  | debug => 5
  | trace => 6

/-- Whether entries of the level `l` are shown when `threshold` is asked for. -/
def passes (threshold l : Level) : Bool := l.rank ≤ threshold.rank

/-- The level of a name in lower case. -/
def ofLowerName? : String → Option Level
  | "panic" => some .panic
  | "fatal" => some .fatal
  | "error" => some .error
  | "warn" => some .warning
  | "warning" => some .warning
  | "info" => some .info
  | "debug" => some .debug
  | "trace" => some .trace
  | _ => none

/-- The lower case of a character, as far as that is an ASCII letter: besides the
    ASCII capitals, the dotted capital I and the sign for kelvin have one. Other
    characters stay, and no level's name contains them. -/
def lower (c : Char) : Char :=
  if c == '\u0130' then 'i' else if c == '\u212A' then 'k' else c.toLower

/-- The level of a name, whatever its case. -/
def ofName? (name : String) : Option Level := ofLowerName? (name.map lower)

end Level

/-- Something worth noting down. -/
inductive Entry where
  /-- A source was read. -/
  | parsed (diagnostics statements : Nat)
  /-- A function was called. -/
  | called (call : Call)
  /-- A source was evaluated, with the kind of its value, if it had one. -/
  | evaluated (kind : Option Value.Kind)
  /-- A file could not be read. -/
  | unreadable (message file : String)

namespace Entry

/-- How grave an entry is. -/
def level : Entry → Level
  | parsed .. | called .. | evaluated .. => .debug
  | unreadable .. => .error

/-- The message of an entry. A call is noted down with the signature of its function,
    and a function that lacks a parameter has none. -/
def message : Entry → Option String
  | parsed .. => some "parsed"
  | called c => c.callee.signature.map ("call " ++ ·)
  | evaluated .. => some "evaluated"
  | unreadable m _ => some m

/-- The fields of an entry, sorted by name. -/
def fields : Entry → List (String × String)
  | parsed diagnostics statements =>
    [("diagnostics", Text.ofNat diagnostics), ("statements", Text.ofNat statements)]
  | called c => [("depth", Text.ofNat c.depth)]
  | evaluated kind => [("result", (kind.map Value.Kind.name).getD "nada")]
  | unreadable _ file => [("file", file)]

/-- The fields of an entry as text, without quoting. -/
def fieldText (e : Entry) : String :=
  " ".intercalate (e.fields.map fun (k, v) => k ++ "=" ++ v)

end Entry

/-- The entries that are shown when `threshold` is asked for. -/
def shown (threshold : Level) (es : List Entry) : List Entry :=
  es.filter fun e => threshold.passes e.level

end Log

end Incognita
