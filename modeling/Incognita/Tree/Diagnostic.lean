import Incognita.Token

namespace Incognita

/-!
# Tree — what can be wrong with a source

* `Diagnostic` — the faults that reading a program reports;
* `Diagnostic.message` — their wording;
* `Diagnostic.summary` — several of them in one line.
-/

/-- A fault of a source. -/
inductive Diagnostic where
  /-- One kind of token had to come and another one came. -/
  | unexpected (expected found : Token.Kind)
  /-- No expression starts with this token. -/
  | noRule (literal : String)
  /-- The digits spell a number that is out of range. -/
  | badInteger (literal : String)
  /-- The source ends inside a block. -/
  | unclosedBlock
  /-- A break that stands in no loop of its function. -/
  | strayBreak
  deriving DecidableEq, Repr, Inhabited

namespace Diagnostic

/-- The wording of a fault. -/
def message : Diagnostic → String
  | unexpected expected found =>
    "token inesperado: se esperaba " ++ expected.name ++ " pero se obtuvo " ++ found.name
  | noRule literal => "no se encontró ninguna función para analizar: " ++ literal
  | badInteger literal => "no se pudo analizar como entero: " ++ literal
  | unclosedBlock => "se esperaba '\x7d' al final del bloque"
  | strayBreak => "'termina' solo puede usarse dentro de un ciclo"

/-- The faults of a source in one line, in the order in which they were met. -/
def summary (ds : List Diagnostic) : String := "; ".intercalate (ds.map message)

end Diagnostic

end Incognita
