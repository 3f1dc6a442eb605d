import Incognita.Eval.Operators

namespace Incognita

/-!
# Eval — what the operators give

Whatever the operands are, an operator gives an integer, a string, a truth value or an error about
its operands.  It never gives a function or a signal that leads anywhere.

* `RuntimeError.ordinary` — the errors that are about values;
* `Value.Computed` — what an operator can give;
* `Value.computed_unary`, `Value.computed_binary` — the operators give nothing else.
-/

/-- The errors that are about values, and not about the tree. -/
def RuntimeError.ordinary : RuntimeError → Bool
  | strayBreak | invalidNode | invalidInteger _ | custom _ => false
  | _ => true

namespace Value

/-- What an operator can give. -/
inductive Computed : Value → Prop
  | int (n : Int64) : Computed (.int n)
  | bool (b : Bool) : Computed (.bool b)
  | str (s : String) : Computed (.str s)
  | err {e : RuntimeError} (he : e.ordinary = true) : Computed (.err e)

/-- A value that depends on a condition is computed if both of its alternatives are. -/
theorem Computed.ite {p : Prop} [Decidable p] {v w : Value} (hv : v.Computed) (hw : w.Computed) :
    Computed (if p then v else w) := by
  by_cases hp : p
  · rwa [if_pos hp]
  · rwa [if_neg hp]

/-- A negation gives a boolean. -/
theorem computed_negation (v : Value) : v.negation.Computed := by
  cases v with
  | bool b => cases b <;> exact .bool _
  | _ => exact .bool _

/-- A minus sign gives an integer or an error. -/
theorem computed_minus (v : Value) : v.minus.Computed := by
  cases v with
  | int n => exact .int _
  | _ => exact .err rfl

/-- No operator in front of an operand hands on a closure or a return. -/
theorem computed_unary (op : String) (v : Value) : (v.unary op).Computed :=
  .ite (computed_negation v) (.ite (computed_minus v) (.err rfl))

/-- An operator between integers gives an integer, a boolean or an error. -/
theorem computed_binaryInt (op : String) (m n : Int64) : (binaryInt op m n).Computed := by
  have hdiv : Computed (if n = 0 then .err (.divisionByZero m) else .int (m / n)) :=
    .ite (.err rfl) (.int _)
  have hcompare : Computed
      (if op = "<" then .bool (m < n) else if op = "<=" then .bool (m ≤ n)
        else if op = ">" then .bool (n < m) else if op = ">=" then .bool (n ≤ m)
        else if op = "==" then .bool (m == n) else if op = "!=" then .bool (m != n)
        else .err (.unknownBinary .integer op .integer)) :=
    .ite (.bool _) (.ite (.bool _) (.ite (.bool _) (.ite (.bool _) (.ite (.bool _)
      (.ite (.bool _) (.err rfl))))))
  exact .ite (.int _) (.ite (.int _) (.ite (.int _) (.ite hdiv hcompare)))

/-- An operator between texts gives a text, a boolean or an error. -/
theorem computed_binaryStr (op : String) (s t : String) : (binaryStr op s t).Computed :=
  .ite (.str _) (.ite (.bool _) (.ite (.bool _) (.err rfl)))

/-- **The operators compute data**, or find fault with their operands.  So no operator brings a
    function, a return or a break into being, which all invariants on values rely on. -/
theorem computed_binary (op : String) (v w : Value) : (binary op v w).Computed := by
  unfold binary
  split
  · exact computed_binaryInt op _ _
  · exact computed_binaryStr op _ _
  · exact .ite (.bool _) (.ite (.bool _) (.ite (.err rfl) (.err rfl)))

end Value

end Incognita
