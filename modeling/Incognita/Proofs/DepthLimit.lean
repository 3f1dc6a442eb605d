import Incognita.Proofs.Evaluations

namespace Incognita

/-!
# Eval — the limit on nested calls

The limit is looked at in one place, where a call is about to be made.  A call beyond the limit is
an error, and no operator, condition, loop, argument or return holds an error back.  So a limit
cuts an evaluation short or has no part in it.

* `Outcome.OrCut` — two outcomes are the same, unless the first one was cut short;
* `Eval.Job.cut` — what an evaluation gives that was cut short;
* `Eval.Job.run_orCut` — evaluations under a limit and under a larger one;
* `Node.evaluates_of_limit_le` — a tree that is not cut short evaluates to the same under every
  larger limit.
-/

/-! ### Outcomes -/

namespace Outcome

variable {α β : Type} {cut : α} {cut' : β} {o o' : Outcome α}

/-- The second outcome is the first one, unless the first one was cut short. -/
def OrCut (cut : α) (o o' : Outcome α) : Prop := o' = o ∨ ∃ t, o = .done cut t

namespace OrCut

theorem refl (cut : α) (o : Outcome α) : o.OrCut cut o := .inl rfl

/-- What goes on from a cut is cut as well. -/
theorem bind {k k' : α → Store → Outcome β} (h : o.OrCut cut o')
    (hcut : ∀ t, ∃ u, k cut t = .done cut' u) (hk : ∀ a s, (k a s).OrCut cut' (k' a s)) :
    (o.bind k).OrCut cut' (o'.bind k') := by
  -- Either both outcomes go on alike, or the first one was cut and `hcut` says what becomes of
  -- that.
  rcases h with rfl | ⟨t, rfl⟩
  · cases o' with
    | done a s => exact hk a s
    | fault => exact .inl rfl
    | outOfFuel => exact .inl rfl
  · exact .inr (hcut t)

/-- An operand that was cut short is a signal, so nothing goes on from it. -/
theorem operand {e : RuntimeError} {o o' : Outcome Result}
    {k k' : Value → Store → Outcome Result} (h : o.OrCut (some (.err e)) o')
    (hk : ∀ v s, (k v s).OrCut (some (.err e)) (k' v s)) :
    (o.operand k).OrCut (some (.err e)) (o'.operand k') := by
  refine h.bind (fun t => ⟨t, rfl⟩) fun r s => ?_
  by_cases hv : (r.getD .null).isSignal = true
  · simp only [hv, if_true]
    exact .refl _ _
  · simp only [hv, Bool.false_eq_true, if_false]
    exact hk _ s

end OrCut

end Outcome

namespace Eval

namespace Job

/-- What an evaluation gives that the limit `n` cut short. -/
def cut (n : Nat) : (j : Job) → j.Result
  | args _ => .error (.err (.tooDeep n))
  | expr _ | logical _ | call _ _ | loop _ _ | block _ | stmts _ _ | stmt _ =>
    some (.err (.tooDeep n))

/-- Every evaluation under the limit `n` goes on under the limit `m` as well, unless it is cut
    short. -/
def AllOrCut (n m fuel : Nat) : Prop :=
  ∀ (j : Job) (env : Env) (depth : Nat) (s : Store),
    (j.run fuel ⟨env, depth, n⟩ s).OrCut (j.cut n) (j.run fuel ⟨env, depth, m⟩ s)

variable {n m fuel : Nat} {env : Env} {depth : Nat} {s : Store}

/-- No expression looks at the limit: its parts do, and they are related by induction. -/
theorem expr_orCut (ih : AllOrCut n m fuel) (e : Expr) :
    (Eval.expr (fuel + 1) ⟨env, depth, n⟩ e s).OrCut (some (.err (.tooDeep n)))
      (Eval.expr (fuel + 1) ⟨env, depth, m⟩ e s) := by
  cases e with
  | missing | bool | str | fn => simp only [Eval.expr]; exact .refl _ _
  | ident x => rw [expr_ident, expr_ident]; exact .refl _ _
  | int t v => cases v <;> simp only [Eval.expr] <;> exact .refl _ _
  | unary t op e =>
    simp only [Eval.expr]
    exact .operand (ih (.expr e) env depth s) fun v s => .refl _ _
  | binary t l op r =>
    simp only [Eval.expr]
    refine .operand (ih (.expr l) env depth s) fun v s => ?_
    split
    · split
      · exact ih (.logical r) env depth s
      · exact .refl _ _
    · split
      · split
        · exact .refl _ _
        · exact ih (.logical r) env depth s
      · exact .operand (ih (.expr r) env depth s) fun w s => .refl _ _
  | choice t c a b =>
    rw [expr_choice, expr_choice]
    refine .operand (ih (.expr c) env depth s) fun v s => ?_
    split
    · exact ih (.block a) env depth s
    · split
      · exact .refl _ _
      · exact ih (.block b) env depth s
  | loop t c b => simp only [Eval.expr]; exact ih (.loop c b) env depth s
  | call t f as =>
    simp only [Eval.expr]
    refine .operand (ih (.expr f) env depth s) fun v s => ?_
    refine .bind (ih (.args as) env depth s) (fun t => ⟨t, rfl⟩) fun vs s => ?_
    cases vs with
    | ok vs => exact ih (.call v vs) env depth s
    | error signal => exact .refl _ _

/-- An argument that was cut short ends the arguments with its error. -/
theorem args_orCut (ih : AllOrCut n m fuel) (es : List Expr) :
    (Eval.args (fuel + 1) ⟨env, depth, n⟩ es s).OrCut (.error (.err (.tooDeep n)))
      (Eval.args (fuel + 1) ⟨env, depth, m⟩ es s) := by
  cases es with
  | nil => simp only [Eval.args]; exact .refl _ _
  | cons e es =>
    simp only [Eval.args]
    refine .bind (ih (.expr e) env depth s) (fun t => ⟨t, rfl⟩) fun r s => ?_
    split
    · exact .refl _ _
    · exact .bind (ih (.args es) env depth s) (fun t => ⟨t, rfl⟩) fun vs s => .refl _ _

/-- The one place where the limit counts. -/
theorem call_orCut (hnm : n ≤ m) (ih : AllOrCut n m fuel) (f : Value) (vs : List Value) :
    (Eval.call (fuel + 1) ⟨env, depth, n⟩ f vs s).OrCut (some (.err (.tooDeep n)))
      (Eval.call (fuel + 1) ⟨env, depth, m⟩ f vs s) := by
  cases f with
  | fn c =>
    simp only [Eval.call]
    by_cases hlen : c.params.length ≠ vs.length
    · rw [if_pos hlen, if_pos hlen]
      exact .refl _ _
    · rw [if_neg hlen, if_neg hlen]
      by_cases hdeep : n ≤ depth
      -- Here is the cut: the larger limit may do anything.
      · rw [if_pos hdeep]
        exact .inr ⟨s, rfl⟩
      · -- A call that the smaller limit lets through is let through by the larger one.
        have hdeep' : ¬ m ≤ depth := by omega
        rw [if_neg hdeep, if_neg hdeep']
        cases Ident.present? c.params with
        | none => exact .refl _ _
        | some names =>
          exact .bind (ih (.block c.body) _ _ _) (fun t => ⟨t, rfl⟩) fun r s => .refl _ _
  | _ => simp only [Eval.call]; exact .refl _ _

/-- A condition or a body that was cut short ends the loop with its error. -/
theorem loop_orCut (ih : AllOrCut n m fuel) (c : Expr) (b : Block) :
    (Eval.loop (fuel + 1) ⟨env, depth, n⟩ c b s).OrCut (some (.err (.tooDeep n)))
      (Eval.loop (fuel + 1) ⟨env, depth, m⟩ c b s) := by
  simp only [Eval.loop]
  refine .operand (ih (.expr c) env depth s) fun v s => ?_
  split
  · refine .bind (ih (.block b) env depth s) (fun t => ⟨t, rfl⟩) fun r s => ?_
    split
    · exact .refl _ _
    · exact .refl _ _
    · exact .refl _ _
    · exact ih (.loop c b) env depth s
  · exact .refl _ _

/-- A statement that was cut short ends the statements with its error. -/
theorem stmts_orCut (ih : AllOrCut n m fuel) (ss : List Stmt) (last : Incognita.Result) :
    (Eval.stmts (fuel + 1) ⟨env, depth, n⟩ ss last s).OrCut (some (.err (.tooDeep n)))
      (Eval.stmts (fuel + 1) ⟨env, depth, m⟩ ss last s) := by
  cases ss with
  | nil => simp only [Eval.stmts]; exact .refl _ _
  | cons st ss =>
    simp only [Eval.stmts]
    refine .bind (ih (.stmt st) env depth s) (fun t => ⟨t, rfl⟩) fun r s => ?_
    split
    · exact .refl _ _
    · exact ih (.stmts ss r) env depth s

/-- The expression of a statement hands its error on, be it to be bound or returned. -/
theorem stmt_orCut (ih : AllOrCut n m fuel) (st : Stmt) :
    (Eval.stmt (fuel + 1) ⟨env, depth, n⟩ st s).OrCut (some (.err (.tooDeep n)))
      (Eval.stmt (fuel + 1) ⟨env, depth, m⟩ st s) := by
  cases st with
  | missing | brk => simp only [Eval.stmt]; exact .refl _ _
  | bind t x e =>
    simp only [Eval.stmt]
    refine .operand (ih (.expr e) env depth s) fun v s => ?_
    cases x with
    | none => exact .refl _ _
    | some x => exact .refl _ _
  | ret t e =>
    by_cases he : e = .missing
    · simp only [he, Eval.stmt]
      exact .refl _ _
    · rw [stmt_ret he, stmt_ret he]
      exact .operand (ih (.expr e) env depth s) fun v s => .refl _ _
  | expr t e => simp only [Eval.stmt]; exact ih (.expr e) env depth s
  | block b => simp only [Eval.stmt]; exact ih (.block b) env depth s

/-- **A limit cuts an evaluation short or has no part in it.**  By induction on the bound, through
    every visitor.  The one place that looks at the limit is a call, and there the outcome is `cut`
    or both limits let it pass. -/
theorem run_orCut (hnm : n ≤ m) (fuel : Nat) : AllOrCut n m fuel := by
  induction fuel with
  | zero =>
    intro j env depth s
    rw [run_zero, run_zero]
    exact .refl _ _
  | succ fuel ih =>
    intro j env depth s
    cases j with
    | expr e => exact expr_orCut ih e
    | logical e =>
      simp only [run, Eval.logical]
      exact .operand (ih (.expr e) env depth s) fun v s => .refl _ _
    | args es => exact args_orCut ih es
    | call f vs => exact call_orCut hnm ih f vs
    | loop c b => exact loop_orCut ih c b
    | block b =>
      cases b with
      | missing => simp only [run, Eval.block]; exact .refl _ _
      | mk t ss => simp only [run, Eval.block]; exact ih (.stmts ss none) env depth s
    | stmts ss last => exact stmts_orCut ih ss last
    | stmt st => exact stmt_orCut ih st

end Job

/-- The statements of a program, where an error ends everything as well. -/
theorem program_orCut {n m : Nat} (hnm : n ≤ m) (fuel : Nat) {env : Env} {depth : Nat}
    (ss : List Stmt) (last : Result) (s : Store) :
    (program fuel ⟨env, depth, n⟩ ss last s).OrCut (some (.err (.tooDeep n)))
      (program fuel ⟨env, depth, m⟩ ss last s) := by
  induction fuel generalizing ss last s with
  | zero => simp only [program]; exact .refl _ _
  | succ fuel ih =>
    cases ss with
    | nil => simp only [program]; exact .refl _ _
    | cons st ss =>
      simp only [program]
      have hstmt := Job.run_orCut hnm fuel (.stmt st) env depth s
      refine .bind hstmt (fun t => ⟨t, rfl⟩) fun r s => ?_
      split
      · exact .refl _ _
      · exact .refl _ _
      · exact .refl _ _
      · exact ih ss _ s

end Eval

namespace Node

variable {n m fuel : Nat} {env : Env} {depth : Nat} {node : Node} {s t : Store} {r : Result}

/-- The three kinds of trees. -/
theorem evalWithin_orCut (hnm : n ≤ m) :
    (node.evalWithin fuel ⟨env, depth, n⟩ s).OrCut (some (.err (.tooDeep n)))
      (node.evalWithin fuel ⟨env, depth, m⟩ s) := by
  cases node with
  | program p => exact Eval.program_orCut hnm fuel p.stmts none s
  | stmt st => exact Eval.Job.run_orCut hnm fuel (.stmt st) env depth s
  | expr e => exact Eval.Job.run_orCut hnm fuel (.expr e) env depth s

/-- **The limit on nested calls only ever cuts an evaluation short.**  A tree that ends under one
    limit, with anything but the error about that limit, ends under every larger limit with the same
    result, the same scopes and the same calls noted down. -/
theorem evaluates_of_limit_le (hnm : n ≤ m) (h : node.Evaluates ⟨env, depth, n⟩ s r t)
    (hr : r ≠ some (.err (.tooDeep n))) : node.Evaluates ⟨env, depth, m⟩ s r t := by
  obtain ⟨fuel, hf⟩ := h
  refine ⟨fuel, ?_⟩
  -- It was not cut short, as its result is another one.
  rcases @evalWithin_orCut n m fuel env depth node s hnm with heq | ⟨u, hcut⟩
  · rw [heq, hf]
  · rw [hf, Outcome.done.injEq] at hcut
    exact absurd hcut.1 hr

/-- A function that is handed to itself once: `operacion(f) { f(f) }(operacion(f) { 7 })`. -/
def callsTwice : Node :=
  let f : Ident := .ofToken ⟨.ident, "f"⟩
  let body (e : Expr) : Block := .mk ⟨.lbrace, "\x7b"⟩ [.expr ⟨.lparen, "("⟩ e]
  let fn (e : Expr) : Expr := .fn ⟨.kwFunction, "operacion"⟩ [some f] (body e)
  .expr (.call ⟨.lparen, "("⟩ (fn (.call ⟨.lparen, "("⟩ (.ident f) [.ident f]))
    [fn (.int ⟨.int, "7"⟩ (some 7))])

/-- Two nested calls fit under the limit two, so they end alike under the default limit. -/
theorem callsTwice_of_two : 2 ≤ Eval.defaultLimit ∧
    ∃ t, callsTwice.Evaluates ⟨.root, 0, Eval.defaultLimit⟩ .initial (some (.int 7)) t := by
  have hle : 2 ≤ Eval.defaultLimit := by decide
  have htwo : ∃ t, callsTwice.Evaluates ⟨.root, 0, 2⟩ .initial (some (.int 7)) t :=
    ⟨_, 12, rfl⟩
  obtain ⟨t, ht⟩ := htwo
  exact ⟨hle, t, evaluates_of_limit_le hle ht (by simp)⟩

end Node

end Incognita
