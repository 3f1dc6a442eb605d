import Incognita.Proofs.Outcomes
import Incognita.Tree.Outline
import Incognita.Tree.Parser

namespace Incognita

/-!
# Eval — the laws of the logical operators

Negation, conjunction, disjunction and choice all ask one thing of their operands: whether they
count as true.  A signal among the operands is the result of all of them.  So expressions that ask
the same operands in the same order, and answer alike, have the same effect, whatever the operands
bind, call or fail with.

* `Outcome.operand_operand` — an operand of an operand;
* `Value.negation_eq` — negation, which has a table of its own, asks nothing else either;
* `Eval.outcome_not`, `Eval.outcome_and`, `Eval.outcome_or`, `Eval.outcome_choose` — what the
  operators and a choice between truth values come to, in these terms;
* `logical_laws` — the laws of De Morgan, double negation, and the operators as choices.
-/

namespace Outcome

/-- A signal that an operand gives has gone through its own operands already. -/
theorem operand_operand {o : Outcome Result} {k k' : Value → Store → Outcome Result} :
    (o.operand k).operand k' = o.operand fun v s => (k v s).operand k' := by
  cases o with
  | fault | outOfFuel => rfl
  | done r s =>
    cases h : (r.getD .null).isSignal with
    | true =>
      rw [operand_of_isSignal h, operand_of_isSignal h]
      exact operand_of_isSignal h
    | false => rw [operand_of_not_isSignal h, operand_of_not_isSignal h]

/-- What goes on from one of two evaluations. -/
theorem operand_ite {c : Prop} [Decidable c] {o o' : Outcome Result}
    {k : Value → Store → Outcome Result} :
    (if c then o else o').operand k = if c then o.operand k else o'.operand k := by
  split <;> rfl

theorem operand_bool {b : Bool} {s : Store} {k : Value → Store → Outcome Result} :
    (done (some (.bool b)) s).operand k = k (.bool b) s := rfl

/-- It makes no difference to an operand how what goes on from it is written. -/
theorem operand_congr {o : Outcome Result} {k k' : Value → Store → Outcome Result}
    (h : ∀ v s, k v s = k' v s) : o.operand k = o.operand k' :=
  operand_congr_done fun r s _ _ => h (r.getD .null) s

end Outcome

namespace Value

/-- **Negation is about what counts as true**, like everything else that asks for it. -/
theorem negation_eq (v : Value) : v.negation = .bool (!v.truthy) := by
  cases v with
  | bool b => cases b <;> rfl
  | _ => rfl

theorem truthy_bool (b : Bool) : (Value.bool b).truthy = b := rfl

end Value

/-! ### The trees -/

section

variable (tok : Token.Kind → Token)

/-- The negation of an expression.  For each kind of tokens `tok` is the one that the tree has. -/
def Expr.no (e : Expr) : Expr := .unary (tok .bang) "!" e

/-- The conjunction of two expressions. -/
def Expr.both (a b : Expr) : Expr := .binary (tok .and) a "&&" b

/-- The disjunction of two expressions. -/
def Expr.either (a b : Expr) : Expr := .binary (tok .or) a "||" b

/-- A block with nothing in it but an expression, which starts with a token of the kind `k`. -/
def Block.only (k : Token.Kind) (e : Expr) : Block := .mk (tok .lbrace) [.expr (tok k) e]

/-- A block with a truth value in it. -/
def Block.truth : Bool → Block
  | true => .only tok .kwTrue (.bool (tok .kwTrue) true)
  | false => .only tok .kwFalse (.bool (tok .kwFalse) false)

/-- The choice between two blocks. -/
def Expr.choose (c : Expr) (a b : Block) : Expr := .choice (tok .kwIf) c a b

end

namespace Eval

open Outcome

/-! ### What they come to -/

variable {tok : Token.Kind → Token} {ctx : Context} {s : Store} {a b e : Expr}

/-- A negation gives the opposite of what its operand is taken for. -/
theorem outcome_not : (Job.expr (.no tok e)).outcome ctx s =
    ((Job.expr e).outcome ctx s).operand fun v s => .done (some (.bool (!v.truthy))) s := by
  rw [Expr.no, outcome_unary]
  refine operand_congr fun v s => ?_
  rw [← v.negation_eq]
  rfl

/-- The right operand of `&&` is evaluated if the left one is taken for true. -/
theorem outcome_and : (Job.expr (.both tok a b)).outcome ctx s =
    ((Job.expr a).outcome ctx s).operand fun v s =>
      if v.truthy then
        ((Job.expr b).outcome ctx s).operand fun w s => .done (some (.bool w.truthy)) s
      else .done (some (.bool false)) s := by
  rw [Expr.both, outcome_binary]
  refine operand_congr fun v s => ?_
  rw [if_pos rfl, outcome_logical]

/-- The right operand of `||` is evaluated if the left one is taken for false. -/
theorem outcome_or : (Job.expr (.either tok a b)).outcome ctx s =
    ((Job.expr a).outcome ctx s).operand fun v s =>
      if v.truthy then .done (some (.bool true)) s
      else ((Job.expr b).outcome ctx s).operand fun w s => .done (some (.bool w.truthy)) s := by
  rw [Expr.either, outcome_binary]
  refine operand_congr fun v s => ?_
  rw [if_neg (by decide), if_pos rfl, outcome_logical]

/-- A block with one expression does what the expression does, signals included. -/
theorem outcome_only {k : Token.Kind} :
    (Job.block (.only tok k e)).outcome ctx s = (Job.expr e).outcome ctx s := by
  simp only [Block.only, outcome_block, outcome_stmts_cons, outcome_exprStmt, outcome_stmts_nil,
    ite_self]
  exact bind_done

/-- A block of one truth value gives that value. -/
theorem outcome_truth {x : Bool} :
    (Job.block (.truth tok x)).outcome ctx s = .done (some (.bool x)) s := by
  cases x <;> rw [Block.truth, outcome_only, outcome_bool]

/-- A choice with two blocks evaluates one of them. -/
theorem outcome_choose {x y : Block} (hy : y.isMissing = false) :
    (Job.expr (.choose tok e x y)).outcome ctx s =
      ((Job.expr e).outcome ctx s).operand fun v s =>
        if v.truthy then (Job.block x).outcome ctx s else (Job.block y).outcome ctx s := by
  rw [Expr.choose, outcome_choice]
  refine operand_congr fun v s => ?_
  simp only [hy, Bool.false_eq_true, if_false]

/-- A choice between true and false gives what a logical operator makes of its right operand. -/
theorem outcome_choose_truth :
    (Job.expr (.choose tok e (.truth tok true) (.truth tok false))).outcome ctx s =
      ((Job.expr e).outcome ctx s).operand fun v s => .done (some (.bool v.truthy)) s := by
  rw [outcome_choose rfl]
  refine operand_congr fun v s => ?_
  rw [outcome_truth, outcome_truth]
  cases v.truthy <;> rfl

/-! ### The laws -/

/-- The first law of De Morgan, in the order in which the operands are evaluated. -/
theorem outcome_not_and : (Job.expr (.no tok (.both tok a b))).outcome ctx s =
    (Job.expr (.either tok (.no tok a) (.no tok b))).outcome ctx s := by
  rw [outcome_not, outcome_and, outcome_or, outcome_not]
  -- With the outer operand pushed inward both sides ask `a` first, and go on by the answer.
  simp only [outcome_not, operand_operand, operand_ite, operand_bool, Value.truthy_bool]
  refine operand_congr fun v s => ?_
  cases v.truthy <;> rfl

/-- The second one. -/
theorem outcome_not_or : (Job.expr (.no tok (.either tok a b))).outcome ctx s =
    (Job.expr (.both tok (.no tok a) (.no tok b))).outcome ctx s := by
  rw [outcome_not, outcome_or, outcome_and, outcome_not]
  simp only [outcome_not, operand_operand, operand_ite, operand_bool, Value.truthy_bool]
  refine operand_congr fun v s => ?_
  cases v.truthy <;> rfl

/-- A double negation leaves nothing but the truth value, which is what `&&` gives. -/
theorem outcome_not_not_and : (Job.expr (.no tok (.no tok (.both tok a b)))).outcome ctx s =
    (Job.expr (.both tok a b)).outcome ctx s := by
  rw [outcome_not, outcome_not, outcome_and]
  simp only [operand_operand, operand_ite, operand_bool, Value.truthy_bool, Bool.not_not]

/-- A conjunction is a choice within a choice. -/
theorem outcome_and_choose : (Job.expr (.both tok a b)).outcome ctx s =
    (Job.expr (.choose tok a
      (.only tok .kwIf (.choose tok b (.truth tok true) (.truth tok false)))
      (.truth tok false))).outcome ctx s := by
  rw [outcome_and, outcome_choose rfl]
  refine operand_congr fun v s => ?_
  rw [outcome_only, outcome_choose_truth, outcome_truth]

/-- So is a disjunction. -/
theorem outcome_or_choose : (Job.expr (.either tok a b)).outcome ctx s =
    (Job.expr (.choose tok a (.truth tok true)
      (.only tok .kwIf (.choose tok b (.truth tok true) (.truth tok false))))).outcome ctx s := by
  rw [outcome_or, outcome_choose rfl]
  refine operand_congr fun v s => ?_
  rw [outcome_only, outcome_choose_truth, outcome_truth]

end Eval

/-- **The logical operators obey their laws**, whatever their operands do: in every state the two
    sides of each law end together, with the same result or the same signal, the same scopes and the
    same calls noted down. -/
theorem logical_laws (tok : Token.Kind → Token) (a b : Expr) (ctx : Context) (s : Store) :
    Node.SameEffect ctx s (.expr (.no tok (.both tok a b)))
      (.expr (.either tok (.no tok a) (.no tok b))) ∧
    Node.SameEffect ctx s (.expr (.no tok (.either tok a b)))
      (.expr (.both tok (.no tok a) (.no tok b))) ∧
    Node.SameEffect ctx s (.expr (.no tok (.no tok (.both tok a b)))) (.expr (.both tok a b)) ∧
    Node.SameEffect ctx s (.expr (.both tok a b))
      (.expr (.choose tok a
        (.only tok .kwIf (.choose tok b (.truth tok true) (.truth tok false)))
        (.truth tok false))) ∧
    Node.SameEffect ctx s (.expr (.either tok a b))
      (.expr (.choose tok a (.truth tok true)
        (.only tok .kwIf (.choose tok b (.truth tok true) (.truth tok false))))) := by
  refine ⟨?_, ?_, ?_, ?_, ?_⟩
  · exact Node.sameEffect_expr Eval.outcome_not_and
  · exact Node.sameEffect_expr Eval.outcome_not_or
  · exact Node.sameEffect_expr Eval.outcome_not_not_and
  · exact Node.sameEffect_expr Eval.outcome_and_choose
  · exact Node.sameEffect_expr Eval.outcome_or_choose

-- The choice of the fourth law is the one that its source spells.
example :
    let tok (k : Token.Kind) : Token := ⟨k, ""⟩
    let inner := Expr.choose tok (.ident ⟨tok .ident, "b"⟩) (.truth tok true) (.truth tok false)
    let outer := Expr.choose tok (.ident ⟨tok .ident, "a"⟩) (.only tok .kwIf inner)
      (.truth tok false)
    (parse ("si (a) \x7b si (b) \x7b verdadero \x7d tonces \x7b falso \x7d \x7d " ++
      "tonces \x7b falso \x7d")).program.outline =
        Program.outline ⟨[.expr (tok .kwIf) outer]⟩ := by
  decide +kernel

end Incognita
