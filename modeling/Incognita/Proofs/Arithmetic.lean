import Mathlib.Algebra.Group.Nat.Defs
import Mathlib.Algebra.Ring.Int.Defs
import Incognita.Proofs.Outcomes

namespace Incognita

/-!
# Eval — arithmetic wraps around

Every sum, difference, product and negative is cut down to 64 bits where it is computed.  As cutting
down goes together with all four of them, it makes no difference how often it happens on the way:
what comes out is the exact value, cut down once.  Division does not go together with it, and is
looked at by itself.

* `Expr.exactValue?` — the exact value of an expression of integers, signs, sums, differences and
  products;
* `Value.binaryInt_exact` — an operation on cut-down integers is the exact one, cut down;
* `Eval.outcome_exact` — and so is the value of a whole expression;
* `Value.IsQuotient`, `Value.isQuotient_binaryInt` — what a division gives;
* `arithmetic_wraps` — both for expressions that are evaluated in any state.
-/

/-! ### Exact values -/

/-- The exact operation that an operator stands for, if cutting down goes together with it. -/
def exactOp? (op : String) : Option (Int → Int → Int) :=
  if op = "+" then some (· + ·)
  else if op = "-" then some (· - ·)
  else if op = "*" then some (· * ·)
  else none

/-- The exact value of an expression that is made of integers, signs, sums, differences and
    products. -/
def Expr.exactValue? : Expr → Option Int
  | .int _ n => n.map Int64.toInt
  | .unary _ op e => if op = "-" then e.exactValue?.map (- ·) else none
  | .binary _ l op r => do
    let f ← exactOp? op
    let x ← l.exactValue?
    let y ← r.exactValue?
    some (f x y)
  | _ => none

/-- The operators with an exact operation, which the logical ones are not among. -/
theorem exactOp?_cases {op : String} {f : Int → Int → Int} (h : exactOp? op = some f) :
    (op = "+" ∧ f = (· + ·)) ∨ (op = "-" ∧ f = (· - ·)) ∨ (op = "*" ∧ f = (· * ·)) := by
  unfold exactOp? at h
  split at h
  · next hop => exact .inl ⟨hop, (Option.some.inj h).symm⟩
  · split at h
    · next hop => exact .inr (.inl ⟨hop, (Option.some.inj h).symm⟩)
    · split at h
      · next hop => exact .inr (.inr ⟨hop, (Option.some.inj h).symm⟩)
      · exact absurd h (by simp)

namespace Value

/-- **An operation on cut-down integers is the exact one, cut down.**  `Int64.ofInt` respects sums,
    differences and products, however often they have wrapped around; division it does not respect,
    so `exactOp?` leaves it out. -/
theorem binaryInt_exact {op : String} {f : Int → Int → Int} (h : exactOp? op = some f)
    (x y : Int) :
    binaryInt op (Int64.ofInt x) (Int64.ofInt y) = .int (Int64.ofInt (f x y)) := by
  rcases exactOp?_cases h with ⟨rfl, rfl⟩ | ⟨rfl, rfl⟩ | ⟨rfl, rfl⟩
  · rw [Int64.ofInt_add]
    rfl
  · rw [Int64.ofInt_sub]
    rfl
  · rw [Int64.ofInt_mul]
    rfl

end Value

namespace Eval

variable {ctx : Context} {s : Store}

/-- An operation on two integers whose operator is not a logical one. -/
theorem outcome_binary_int {t : Token} {l r : Expr} {op : String} {a b : Int64} {s₁ s₂ : Store}
    (hand : op ≠ "&&") (hor : op ≠ "||")
    (hl : (Job.expr l).outcome ctx s = .done (some (.int a)) s₁)
    (hr : (Job.expr r).outcome ctx s₁ = .done (some (.int b)) s₂) :
    (Job.expr (.binary t l op r)).outcome ctx s = .done (some (Value.binaryInt op a b)) s₂ := by
  rw [outcome_binary, hl, Outcome.operand_of_not_isSignal rfl, if_neg hand, if_neg hor,
    Option.getD_some, hr, Outcome.operand_of_not_isSignal rfl]
  rfl

/-- **An expression with an exact value comes to that value, cut down**, and changes nothing.  By
    induction on the expression, whose operands are evaluated one after the other in the same
    store. -/
theorem outcome_exact (e : Expr) {x : Int} (h : e.exactValue? = some x) :
    (Job.expr e).outcome ctx s = .done (some (.int (Int64.ofInt x))) s := by
  fun_induction Expr.exactValue? e generalizing x with
  | case1 t n =>
    -- A literal without a value has no exact value either.
    obtain ⟨n, rfl, rfl⟩ := Option.map_eq_some_iff.1 h
    rw [outcome_int, Int64.ofInt_toInt]
  | case2 t e ih =>
    obtain ⟨y, hy, rfl⟩ := Option.map_eq_some_iff.1 h
    rw [outcome_unary, ih hy, Outcome.operand_of_not_isSignal rfl, Int64.ofInt_neg]
    rfl
  | case3 => exact absurd h (by simp)
  | case4 t l op r ihl ihr =>
    simp only [Option.bind_eq_bind, Option.bind_eq_some_iff, Option.some.injEq] at h
    obtain ⟨f, hf, y, hy, z, hz, rfl⟩ := h
    -- The logical operators come first in the evaluation, so they have to be ruled out.
    have hand : op ≠ "&&" := by
      rintro rfl
      exact absurd hf (by simp [exactOp?])
    have hor : op ≠ "||" := by
      rintro rfl
      exact absurd hf (by simp [exactOp?])
    rw [outcome_binary_int hand hor (ihl hy) (ihr hz), Value.binaryInt_exact hf]
  | case5 => exact absurd h (by simp)

end Eval

/-! ### Division -/

/-- What the division of `a` by `b` gives. -/
structure Value.IsQuotient (a b : Int64) (v : Value) : Prop where
  /-- Nothing can be divided by zero. -/
  byZero : b = 0 → ∃ e, v = .err e ∧ e.message = "división entre cero: " ++ Text.ofInt64 a ++ " / 0"
  /-- The remainder is smaller than the divisor, and it is zero or has the sign of the dividend. -/
  remainder : b ≠ 0 → ¬ (a.toInt = -2 ^ 63 ∧ b.toInt = -1) →
    ∃ (q : Int64) (r : Int), v = .int q ∧ a.toInt = q.toInt * b.toInt + r ∧
      r.natAbs < b.toInt.natAbs ∧ (r = 0 ∨ r.sign = a.toInt.sign)
  /-- The one quotient that does not fit into 64 bits. -/
  wraps : a.toInt = -2 ^ 63 → b.toInt = -1 → ∃ q : Int64, v = .int q ∧ q.toInt = -2 ^ 63

namespace Value

/-- A quotient that fits is the exact one. -/
theorem toInt_div_eq {a b : Int64} (h : ¬ (a.toInt = -2 ^ 63 ∧ b.toInt = -1)) :
    (a / b).toInt = a.toInt.tdiv b.toInt := by
  -- Either operand alone can keep the quotient within 64 bits.
  by_cases ha : a = Int64.minValue
  · apply Int64.toInt_div_of_ne_right
    rintro rfl
    exact h ⟨by rw [ha, Int64.toInt_minValue], rfl⟩
  · exact Int64.toInt_div_of_ne_left a b ha

/-- The division of `Value.binaryInt` gives a quotient in the sense of `IsQuotient`.  The three
    cases of the definition are apart: an error, the exact quotient, and the wrapped one. -/
theorem isQuotient_binaryInt (a b : Int64) : IsQuotient a b (binaryInt "/" a b) where
  byZero := by
    rintro rfl
    exact ⟨.divisionByZero a, rfl, rfl⟩
  remainder := by
    intro hb hfits
    have hq := toInt_div_eq hfits
    refine ⟨a / b, a.toInt.tmod b.toInt, if_neg hb, ?_, ?_, ?_⟩
    -- The remainder is that of the division toward zero, on the exact integers.
    · rw [hq, Int.mul_comm]
      exact (Int.mul_tdiv_add_tmod a.toInt b.toInt).symm
    · have hpos : 0 < b.toInt.natAbs := by
        have hne : b.toInt ≠ 0 := fun h0 => hb (Int64.toInt_inj.1 h0)
        omega
      rw [Int.natAbs_tmod]
      exact Nat.mod_lt _ hpos
    · have hsign := Int.sign_tmod a.toInt b.toInt
      by_cases hdvd : b.toInt ∣ a.toInt
      · exact .inl (Int.tmod_eq_zero_of_dvd hdvd)
      · rw [if_neg hdvd] at hsign
        exact .inr hsign
  wraps := by
    intro ha hb
    have ha' : a = Int64.minValue := Int64.toInt_inj.1 (ha.trans Int64.toInt_minValue.symm)
    have hb' : b = -1 := Int64.toInt_inj.1 hb
    refine ⟨Int64.minValue, ?_, Int64.toInt_minValue⟩
    rw [ha', hb']
    rfl

end Value

/-- **Arithmetic is exact up to multiples of `2 ^ 64`**: an expression of integers, signs, sums,
    differences and products evaluates to the number within 64 bits that differs from its exact
    value by such a multiple.  And **a division** of what two operands evaluate to goes toward
    zero. -/
theorem arithmetic_wraps (ctx : Context) (s : Store) :
    (∀ e x, e.exactValue? = some x →
      ∃ n : Int64, (Node.expr e).Evaluates ctx s (some (.int n)) s ∧ n.toInt = x.bmod (2 ^ 64)) ∧
    ∀ t l r a b s₁ s₂, (Node.expr l).Evaluates ctx s (some (.int a)) s₁ →
      (Node.expr r).Evaluates ctx s₁ (some (.int b)) s₂ →
      ∃ v, (Node.expr (.binary t l "/" r)).Evaluates ctx s (some v) s₂ ∧ v.IsQuotient a b := by
  constructor
  · intro e x hx
    exact ⟨Int64.ofInt x, Node.evaluates_expr_iff.2 (Eval.outcome_exact e hx), Int64.toInt_ofInt⟩
  · intro t l r a b s₁ s₂ hl hr
    rw [Node.evaluates_expr_iff] at hl hr
    have hdiv : (Eval.Job.expr (.binary t l "/" r)).outcome ctx s =
        .done (some (Value.binaryInt "/" a b)) s₂ :=
      Eval.outcome_binary_int (by decide) (by decide) hl hr
    exact ⟨_, Node.evaluates_expr_iff.2 hdiv, Value.isQuotient_binaryInt a b⟩

/-- The expression `-9223372036854775807 - 1`, whose value is the smallest integer. -/
def Expr.smallest : Expr :=
  .binary ⟨.minus, "-"⟩
    (.unary ⟨.minus, "-"⟩ "-" (.int ⟨.int, "9223372036854775807"⟩ (some 9223372036854775807)))
    "-" (.int ⟨.int, "1"⟩ (some 1))

/-- Twice the smallest integer is zero, and its quotient by minus one is itself. -/
theorem arithmetic_wraps_smallest :
    let ctx : Context := ⟨.root, 0, Eval.defaultLimit⟩
    let minusOne : Expr := .unary ⟨.minus, "-"⟩ "-" (.int ⟨.int, "1"⟩ (some 1))
    (Expr.binary ⟨.plus, "+"⟩ .smallest "+" .smallest).exactValue? = some (-2 ^ 64) ∧
    (Node.expr (.binary ⟨.plus, "+"⟩ .smallest "+" .smallest)).Evaluates ctx .initial
      (some (.int 0)) .initial ∧
    (Node.expr (.binary ⟨.slash, "/"⟩ .smallest "/" minusOne)).Evaluates ctx .initial
      (some (.int Int64.minValue)) .initial := by
  intro ctx minusOne
  obtain ⟨hvalue, hdiv⟩ := arithmetic_wraps ctx .initial
  have htwice : (Expr.binary ⟨.plus, "+"⟩ .smallest "+" .smallest).exactValue? = some (-2 ^ 64) :=
    rfl
  obtain ⟨n, hn, hn'⟩ := hvalue _ _ htwice
  obtain ⟨a, ha, ha'⟩ := hvalue .smallest (-2 ^ 63) rfl
  obtain ⟨b, hb, hb'⟩ := hvalue minusOne (-1) rfl
  -- The division is the one whose quotient does not fit, so `wraps` tells its value.
  obtain ⟨v, hv, hquotient⟩ := hdiv ⟨.slash, "/"⟩ _ _ a b _ _ ha hb
  obtain ⟨q, rfl, hq⟩ := hquotient.wraps ha' hb'
  have hzero : n = 0 := Int64.toInt_inj.1 hn'
  have hmin : q = Int64.minValue := Int64.toInt_inj.1 (hq.trans Int64.toInt_minValue.symm)
  rw [hzero] at hn
  rw [hmin] at hv
  exact ⟨htwice, hn, hv⟩

end Incognita
