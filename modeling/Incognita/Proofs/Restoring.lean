import Incognita.Evaluator
import Incognita.Proofs.Jobs

namespace Incognita

/-!
# Evaluator — what it has changed it puts back

An evaluator is changed by every call: the depth goes up and down again, and the environment
is another one in between.  Whatever the body of the function comes to, a value, a return, a break
or an error at any depth, the evaluator is afterwards in the environment and at the depth that it
was in before.  So it does what the evaluations of `Eval` do, which are told both and change
neither.

* `Evaluator.ofContext` — the evaluator in a context;
* `Outcome.on` — an evaluation that leaves the evaluator in its context;
* `Evaluator.enter_ofContext`, `Evaluator.leave_ofContext` — what a call does to a context, and
  undoes;
* `Evaluator.Restores`, `Evaluator.restores` — every evaluation of the evaluator is one of `Eval`,
  in its context;
* `Evaluator.evaluate_eq` — so evaluating a tree changes the store and nothing else.
-/

/-- The evaluator in a context, with a store. -/
def Evaluator.ofContext (ctx : Context) (s : Store) : Evaluator :=
  ⟨some ctx.env, ctx.depth, ctx.limit, s⟩

namespace Outcome

variable {α β : Type} {ctx : Context}

/-- The same evaluation by an evaluator, which ends in the context that it was in. -/
def on (ctx : Context) : Outcome α → Ending α
  | .done a s => .done a (.ofContext ctx s)
  | .fault => .fault
  | .outOfFuel => .outOfFuel

/-- What goes on alike after an evaluation is alike as a whole. -/
theorem bind_on {o : Outcome α} {k : α → Evaluator → Ending β} {k' : α → Store → Outcome β}
    (h : ∀ a s, k a (.ofContext ctx s) = (k' a s).on ctx) :
    (o.on ctx).bind k = (o.bind k').on ctx := by
  cases o with
  | done a s => exact h a s
  | fault | outOfFuel => rfl

/-- The same for an operand, which may be a signal. -/
theorem operand_on {o : Outcome Result} {k : Value → Evaluator → Ending Result}
    {k' : Value → Store → Outcome Result}
    (h : ∀ v s, k v (.ofContext ctx s) = (k' v s).on ctx) :
    (o.on ctx).operand k = (o.operand k').on ctx := by
  refine bind_on fun r s => ?_
  show (if (r.getD .null).isSignal then _ else _) = Outcome.on ctx (if _ then _ else _)
  split
  · rfl
  · exact h _ s

end Outcome

namespace Evaluator

variable {fuel : Nat} {ctx : Context} {s : Store}

/-! ### What a call does and undoes -/

/-- The body of a function runs in a context of its own, one call deeper. -/
theorem enter_ofContext (c : Closure) (names : List Ident) (vs : List Value) :
    (Evaluator.ofContext ctx s).enter c names vs =
      .ofContext ⟨(s.alloc c.scopes (bindParams names vs)).1, ctx.depth + 1, ctx.limit⟩
        ((s.alloc c.scopes (bindParams names vs)).2.logCall c (ctx.depth + 1)) := rfl

/-- **Leaving a function leads back to the context that it was entered from**: what was counted up
    is counted down, whatever has been counted up and down in between.  The depth was raised by one
    for the call, and the environment is the one that was kept aside for it. -/
theorem leave_ofContext (env : Env) (t : Store) :
    (Evaluator.ofContext ⟨env, ctx.depth + 1, ctx.limit⟩ t).leave (.ofContext ctx s) =
      .ofContext ctx t := rfl

/-! ### Every evaluation -/

/-- Under a bound every evaluation of the evaluator is one of `Eval`, in its context. -/
structure Restores (fuel : Nat) : Prop where
  expr : ∀ ctx s e, expr fuel e (.ofContext ctx s) = (Eval.expr fuel ctx e s).on ctx
  logical : ∀ ctx s e, logical fuel e (.ofContext ctx s) = (Eval.logical fuel ctx e s).on ctx
  args : ∀ ctx s es, args fuel es (.ofContext ctx s) = (Eval.args fuel ctx es s).on ctx
  call : ∀ ctx s f vs, call fuel f vs (.ofContext ctx s) = (Eval.call fuel ctx f vs s).on ctx
  loop : ∀ ctx s c b, loop fuel c b (.ofContext ctx s) = (Eval.loop fuel ctx c b s).on ctx
  block : ∀ ctx s b, block fuel b (.ofContext ctx s) = (Eval.block fuel ctx b s).on ctx
  stmts : ∀ ctx s ss last,
    stmts fuel ss last (.ofContext ctx s) = (Eval.stmts fuel ctx ss last s).on ctx
  stmt : ∀ ctx s st, stmt fuel st (.ofContext ctx s) = (Eval.stmt fuel ctx st s).on ctx

/-- The evaluator looks names up in its current environment, which is that of the context. -/
theorem lookUp_ofContext (x : Ident) : lookUp x.name (.ofContext ctx s) =
    (Eval.expr (fuel + 1) ctx (.ident x) s).on ctx := by
  rw [Eval.expr_ident]
  unfold lookUp ofContext
  cases h : s.get? ctx.env.path x.name <;> simp only [h] <;> rfl

namespace Restores

variable (ih : Restores fuel)

include ih

/-- The step for expressions.  No case of it touches the depth or the environment. -/
theorem expr_succ (e : Expr) :
    Evaluator.expr (fuel + 1) e (.ofContext ctx s) = (Eval.expr (fuel + 1) ctx e s).on ctx := by
  cases e with
  | missing | bool | str | fn => simp only [Evaluator.expr, Eval.expr]; rfl
  | ident x => simp only [Evaluator.expr]; exact lookUp_ofContext x
  | int t v => cases v <;> simp only [Evaluator.expr, Eval.expr] <;> rfl
  | unary t op e =>
    simp only [Evaluator.expr, Eval.expr, ih.expr]
    exact Outcome.operand_on fun v t => rfl
  | binary t l op r =>
    simp only [Evaluator.expr, Eval.expr, ih.expr]
    refine Outcome.operand_on fun v t => ?_
    simp only [ih.expr, ih.logical]
    split
    · split <;> rfl
    · split
      · split <;> rfl
      · exact Outcome.operand_on fun w u => rfl
  | choice t c a b =>
    -- `Eval.expr` has one case for each kind of condition, the evaluator one for all.
    rw [Eval.expr_choice]
    simp only [Evaluator.expr, ih.expr]
    refine Outcome.operand_on fun v t => ?_
    simp only [ih.block]
    split
    · rfl
    · split <;> rfl
  | loop t c b => simp only [Evaluator.expr, Eval.expr, ih.loop]
  | call t f as =>
    simp only [Evaluator.expr, Eval.expr, ih.expr]
    refine Outcome.operand_on fun v t => ?_
    simp only [ih.args]
    refine Outcome.bind_on fun vs u => ?_
    cases vs with
    | ok vs => exact ih.call ctx u v vs
    | error signal => rfl

/-- The step for arguments. -/
theorem args_succ (es : List Expr) :
    Evaluator.args (fuel + 1) es (.ofContext ctx s) = (Eval.args (fuel + 1) ctx es s).on ctx := by
  cases es with
  | nil => simp only [Evaluator.args, Eval.args]; rfl
  | cons e es =>
    simp only [Evaluator.args, Eval.args, ih.expr]
    refine Outcome.bind_on fun r t => ?_
    simp only [ih.args]
    split
    · rfl
    · exact Outcome.bind_on fun vs u => rfl

/-- The one place where the evaluator is changed for a while. -/
theorem call_succ (f : Value) (vs : List Value) :
    Evaluator.call (fuel + 1) f vs (.ofContext ctx s) =
      (Eval.call (fuel + 1) ctx f vs s).on ctx := by
  cases f with
  | fn c =>
    simp only [Evaluator.call, Eval.call]
    split
    · rfl
    · split
      · next hdeep => rw [if_pos (show ctx.limit ≤ ctx.depth from hdeep)]; rfl
      · next hdeep =>
        rw [if_neg (show ¬ ctx.limit ≤ ctx.depth from hdeep)]
        -- Without all its parameters the body is not entered, so nothing has to be put back.
        cases Ident.present? c.params with
        | none => rfl
        | some names =>
          simp only [enter_ofContext, ih.block]
          cases Eval.block fuel _ c.body _ with
          -- Only an evaluation that is done comes to `leave`, but it may be done
          -- with an error.
          | done r t => exact congrArg (value (Eval.unwrap r)) (leave_ofContext _ t)
          | fault | outOfFuel => rfl
  | _ => simp only [Evaluator.call, Eval.call]; rfl

/-- The step for loops. -/
theorem loop_succ (c : Expr) (b : Block) :
    Evaluator.loop (fuel + 1) c b (.ofContext ctx s) = (Eval.loop (fuel + 1) ctx c b s).on ctx := by
  simp only [Evaluator.loop, Eval.loop, ih.expr]
  refine Outcome.operand_on fun v t => ?_
  simp only [ih.block]
  split
  · refine Outcome.bind_on fun r u => ?_
    simp only [ih.loop]
    cases r with
    | none => rfl
    | some v => cases v <;> rfl
  · rfl

/-- The step for statements one after the other. -/
theorem stmts_succ (ss : List Stmt) (last : Result) :
    Evaluator.stmts (fuel + 1) ss last (.ofContext ctx s) =
      (Eval.stmts (fuel + 1) ctx ss last s).on ctx := by
  cases ss with
  | nil => simp only [Evaluator.stmts, Eval.stmts]; rfl
  | cons st ss =>
    simp only [Evaluator.stmts, Eval.stmts, ih.stmt]
    refine Outcome.bind_on fun r t => ?_
    simp only [ih.stmts]
    split <;> rfl

/-- The step for a statement. -/
theorem stmt_succ (st : Stmt) :
    Evaluator.stmt (fuel + 1) st (.ofContext ctx s) = (Eval.stmt (fuel + 1) ctx st s).on ctx := by
  cases st with
  | missing | brk => simp only [Evaluator.stmt, Eval.stmt]; rfl
  | bind t x e =>
    simp only [Evaluator.stmt, Eval.stmt, ih.expr]
    refine Outcome.operand_on fun v t => ?_
    cases x <;> rfl
  | ret t e =>
    by_cases he : e = .missing
    · simp only [he, Evaluator.stmt, Eval.stmt, Expr.isMissing, if_true]
      rfl
    -- Only a value that is there is evaluated, and then `ret` wraps what comes out.
    · have hpresent : e.isMissing = false := by
        cases e <;> first | exact absurd rfl he | rfl
      rw [Eval.stmt_ret he]
      simp only [Evaluator.stmt, hpresent, Bool.false_eq_true, if_false, ih.expr]
      exact Outcome.operand_on fun v t => rfl
  | expr t e => simp only [Evaluator.stmt, Eval.stmt, ih.expr]
  | block b => simp only [Evaluator.stmt, Eval.stmt, ih.block]

/-- What holds under a bound holds under the next one. -/
theorem succ : Restores (fuel + 1) where
  expr _ _ e := ih.expr_succ e
  logical ctx s e := by
    simp only [Evaluator.logical, Eval.logical, ih.expr]
    exact Outcome.operand_on fun v t => rfl
  args _ _ es := ih.args_succ es
  call _ _ f vs := ih.call_succ f vs
  loop _ _ c b := ih.loop_succ c b
  block ctx s b := by
    cases b with
    | missing => simp only [Evaluator.block, Eval.block]; rfl
    | mk t ss => simp only [Evaluator.block, Eval.block, ih.stmts]
  stmts _ _ ss last := ih.stmts_succ ss last
  stmt _ _ st := ih.stmt_succ st

end Restores

/-- **Every evaluation puts back what it has changed of the evaluator**, by induction on the bound.
    Only calls change anything, and what their bodies change is put back by induction. -/
theorem restores (fuel : Nat) : Restores fuel := by
  induction fuel with
  | zero =>
    constructor <;> intros <;> simp only [expr, logical, args, call, loop, block, stmts, stmt,
      Eval.expr, Eval.logical, Eval.args, Eval.call, Eval.loop, Eval.block, Eval.stmts, Eval.stmt]
      <;> rfl
  | succ fuel ih => exact ih.succ

/-! ### Trees -/

/-- **A program leaves the evaluator where it was**, with the store that `Eval.program` leaves. -/
theorem program_ofContext (ss : List Stmt) (last : Result) :
    program fuel ss last (.ofContext ctx s) = (Eval.program fuel ctx ss last s).on ctx := by
  -- The statement is taken care of by `restores`, and the store varies with it.
  induction fuel generalizing ss last s with
  | zero => simp only [program, Eval.program]; rfl
  | succ fuel ih =>
    cases ss with
    | nil => simp only [program, Eval.program]; rfl
    | cons st ss =>
      simp only [program, Eval.program, (restores fuel).stmt]
      refine Outcome.bind_on fun r t => ?_
      simp only [ih]
      cases r with
      | none => rfl
      | some v => cases v <;> rfl

/-- A tree is run as it is evaluated in the context of the evaluator. -/
theorem run_ofContext (n : Node) :
    run fuel (.ofContext ctx s) n = (n.evalWithin fuel ctx s).on ctx := by
  cases n with
  | program p => exact program_ofContext p.stmts none
  | stmt st => exact (restores fuel).stmt ctx s st
  | expr e => exact (restores fuel).expr ctx s e

/-- **Evaluating a tree changes the store of an evaluator and nothing else**, at whatever depth and
    in whatever environment the evaluator is.  The tree is evaluated at that depth.  What `Eval`
    takes as a context and hands down is thus what the evaluator has as its state and restores. -/
theorem evaluate_eq (m : Evaluator) (n : Node) (env : Env) :
    m.evaluate fuel n env =
      match n.evalWithin fuel ⟨env, m.depth, m.limit⟩ m.store with
      | .done r s => .done r { m with store := s }
      | .fault => .fault
      | .outOfFuel => .outOfFuel := by
  have hrun : run fuel { m with env := some env } n =
      (n.evalWithin fuel ⟨env, m.depth, m.limit⟩ m.store).on ⟨env, m.depth, m.limit⟩ := by
    show run fuel (.ofContext ⟨env, m.depth, m.limit⟩ m.store) n = _
    exact run_ofContext n
  rw [evaluate, hrun]
  cases n.evalWithin fuel ⟨env, m.depth, m.limit⟩ m.store <;> rfl

end Evaluator

end Incognita
