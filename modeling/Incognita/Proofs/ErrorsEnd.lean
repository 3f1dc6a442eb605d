import Incognita.Proofs.Plans

namespace Incognita

/-!
# Eval — an error ends everything

Errors are results like any other, and each evaluation has to hand on those of the evaluations it
makes.  Every plan does: once an evaluation that it asked for has failed, it is over, with the same
error and with the store as it is.  So nothing is evaluated, bound or called after an error.

* `Eval.Job.failure` — what an evaluation gives when it fails;
* `Eval.Event.Fails` — an evaluation ends with an error, and leaves some store;
* `Eval.Plan.PassesErrors`, `Eval.Job.plan_passesErrors` — every plan hands on errors;
* `Eval.EndsAtErrors` — after an error all that happens is that evaluations end with it;
* `Node.endsAtErrors` — this is so in every evaluation of a tree;
* `Node.failure_is_final` — an error is never lost, and nothing comes after it.
-/

namespace Eval

/-- What the evaluation gives when it fails. -/
def Job.failure (e : RuntimeError) : (j : Job) → j.Result
  | .args _ => .error (.err e)
  | .expr _ | .logical _ | .call _ _ | .loop _ _ | .block _ | .stmts _ _ | .stmt _ =>
    some (.err e)

/-- The event is the end of an evaluation that has failed, which leaves the store `t`. -/
def Event.Fails (e : RuntimeError) (t : Store) : Event → Prop
  | began _ => False
  | ended v r u => r = v.job.failure e ∧ u = t

/-! ### Plans hand on errors -/

/-- When an evaluation that the plan asks for fails, the plan is over: it has failed as well, and
    leaves the store as it is. -/
def Plan.PassesErrors {α : Type} (failure : RuntimeError → α) : Plan α → Prop
  | stop _ => True
  | ask v k =>
    (∀ e t, k (v.job.failure e) t = stop (.done (failure e) t)) ∧
      ∀ r t, (k r t).PassesErrors failure

/-- An error is the result of what gives a value or none. -/
def failed (e : RuntimeError) : Result := some (.err e)

namespace Plan

variable {ctx : Context} {s : Store}

/-- A plan that depends on a condition passes errors on if both of its alternatives do. -/
theorem passesErrors_ite {α : Type} {failure : RuntimeError → α} {c : Prop} [Decidable c]
    {p q : Plan α} (hp : p.PassesErrors failure) (hq : q.PassesErrors failure) :
    (if c then p else q).PassesErrors failure := by
  split
  · exact hp
  · exact hq

/-- A plan that stops with a value asks for no evaluation that could fail. -/
theorem passesErrors_value (v : Value) : (value v s).PassesErrors failed := trivial

/-- What does only what another evaluation does fails when that one fails. -/
theorem passesErrors_last (v : Visit) : (last v).PassesErrors v.job.failure :=
  ⟨fun _ _ => rfl, fun _ _ => trivial⟩

/-- An error is a signal, so `Plan.operand` stops with it and never gets to `k`. -/
theorem passesErrors_operand {e : Expr} {k : Value → Store → Plan Result}
    (hk : ∀ v s, (k v s).PassesErrors failed) : (operand ctx e s k).PassesErrors failed := by
  refine ⟨fun e t => rfl, fun r t => ?_⟩
  exact passesErrors_ite (passesErrors_value _) (hk _ t)

end Plan

open Plan

section

variable {ctx : Context} {s : Store}

/-- Every operand of an expression is asked for by `Plan.operand`, the arguments of a call apart,
    which hand on the first signal among them. -/
theorem exprPlan_passesErrors (e : Expr) : (exprPlan ctx s e).PassesErrors failed := by
  cases e with
  | missing | ident | bool | str | fn => trivial
  | int t v => cases v <;> trivial
  | unary t op e =>
    rw [exprPlan]
    exact passesErrors_operand fun v s => passesErrors_value _
  | binary t l op r =>
    rw [exprPlan]
    refine passesErrors_operand fun v s => ?_
    have hlogical : (last ⟨.logical r, ctx, s⟩).PassesErrors failed := passesErrors_last _
    -- Each of the logical operators asks for its right operand as one more evaluation, or stops.
    refine passesErrors_ite (passesErrors_ite hlogical (passesErrors_value _)) ?_
    refine passesErrors_ite (passesErrors_ite (passesErrors_value _) hlogical) ?_
    exact passesErrors_operand fun w s => passesErrors_value _
  | choice t c a b =>
    rw [exprPlan]
    refine passesErrors_operand fun v s => ?_
    refine passesErrors_ite (passesErrors_last ⟨.block a, ctx, s⟩) ?_
    exact passesErrors_ite (passesErrors_value _) (passesErrors_last ⟨.block b, ctx, s⟩)
  | loop t c b => exact passesErrors_last ⟨.loop c b, ctx, s⟩
  | call t f as =>
    rw [exprPlan]
    refine passesErrors_operand fun v s => ⟨fun e t => rfl, fun vs s => ?_⟩
    cases vs with
    | ok vs => exact passesErrors_last ⟨.call v vs, ctx, s⟩
    | error signal => exact passesErrors_value signal

/-- The error of an argument is that of all arguments, which is what `Job.failure` says of them. -/
theorem argsPlan_passesErrors (es : List Expr) :
    (argsPlan ctx s es).PassesErrors fun e => .error (.err e) := by
  cases es with
  | nil => trivial
  | cons e es =>
    refine ⟨fun e t => rfl, fun r t => passesErrors_ite trivial ?_⟩
    exact ⟨fun e t => rfl, fun vs t => trivial⟩

/-- The body of a function is unwrapped, which takes returns out of what it gives and no errors. -/
theorem callPlan_passesErrors (f : Value) (vs : List Value) :
    (callPlan ctx s vs f).PassesErrors failed := by
  cases f with
  | fn c =>
    refine passesErrors_ite (passesErrors_value _) ?_
    refine passesErrors_ite (passesErrors_value _) ?_
    cases Ident.present? c.params with
    | none => trivial
    | some names => exact ⟨fun e t => rfl, fun r t => passesErrors_value _⟩
  | _ => trivial

/-- The error of a body ends the loop, like a return and unlike a break. -/
theorem loopPlan_passesErrors (c : Expr) (b : Block) :
    (loopPlan ctx s c b).PassesErrors failed := by
  refine passesErrors_operand fun v s => passesErrors_ite ?_ (passesErrors_value _)
  refine ⟨fun e t => rfl, fun r t => ?_⟩
  have hnext : (last ⟨.loop c b, ctx, t⟩).PassesErrors failed := passesErrors_last _
  cases r with
  | none => exact hnext
  | some v =>
    cases v with
    | brk | ret | err => trivial
    | _ => exact hnext

/-- Statements end at the first signal, so at the first error. -/
theorem stmtsPlan_passesErrors (ss : List Stmt) (r : Result) :
    (stmtsPlan ctx s r ss).PassesErrors failed := by
  cases ss with
  | nil => trivial
  | cons st ss =>
    refine ⟨fun e t => rfl, fun r t => passesErrors_ite trivial ?_⟩
    exact passesErrors_last ⟨.stmts ss r, ctx, t⟩

/-- Neither a binding nor a return holds back the error of its expression. -/
theorem stmtPlan_passesErrors (st : Stmt) : (stmtPlan ctx s st).PassesErrors failed := by
  cases st with
  | missing | brk => trivial
  | bind t x e =>
    rw [stmtPlan]
    refine passesErrors_operand fun v s => ?_
    cases x <;> trivial
  | ret t e =>
    refine passesErrors_ite (passesErrors_value _) ?_
    exact passesErrors_operand fun v s => passesErrors_value _
  | expr t e => exact passesErrors_last ⟨.expr e, ctx, s⟩
  | block b => exact passesErrors_last ⟨.block b, ctx, s⟩

/-- **Every plan hands on errors.**  An operand, an argument or a statement that fails is looked at
    by `isSignal` first, and handed on with the store as it is. -/
theorem Job.plan_passesErrors (j : Job) : (j.plan ctx s).PassesErrors j.failure := by
  cases j with
  | expr e => exact exprPlan_passesErrors e
  | logical e =>
    rw [plan]
    exact passesErrors_operand fun v s => passesErrors_value _
  | args es => exact argsPlan_passesErrors es
  | call f vs => exact callPlan_passesErrors f vs
  | loop c b => exact loopPlan_passesErrors c b
  | block b =>
    cases b with
    | missing => trivial
    | mk t ss => exact passesErrors_last ⟨.stmts ss none, ctx, s⟩
  | stmts ss last => exact stmtsPlan_passesErrors ss last
  | stmt st => exact stmtPlan_passesErrors st

end

/-! ### What happens after an error -/

/-- Whatever fails among the events, the outcome is that error with the store of then, and all
    that happens in between is that other evaluations end with it. -/
structure EndsAtErrors {α : Type} (failure : RuntimeError → α) (evs : List Event)
    (o : Outcome α) : Prop where
  /-- Whatever comes after a failure is the same failure, further out. -/
  onlyEnds : evs.Pairwise fun ev later => ∀ e t, ev.Fails e t → later.Fails e t
  /-- A failure inside is the outcome of the whole. -/
  outcome : ∀ ev ∈ evs, ∀ e t, ev.Fails e t → o = .done (failure e) t

namespace EndsAtErrors

variable {α β : Type} {failure : RuntimeError → α} {failure' : RuntimeError → β}

theorem nil (o : Outcome α) : EndsAtErrors failure [] o := ⟨.nil, by simp⟩

/-- One evaluation after another, where the second one does nothing if the first one fails. -/
theorem bind {evs : List Event} {o : Outcome α} {more : α → Store → List Event}
    {k : α → Store → Outcome β} (h : EndsAtErrors failure evs o)
    (hk : ∀ a s, EndsAtErrors failure' (more a s) (k a s))
    (hmore : ∀ e t, more (failure e) t = [])
    (hfail : ∀ e t, k (failure e) t = .done (failure' e) t) :
    EndsAtErrors failure' (evs ++ o.after more) (o.bind k) := by
  have hnext : EndsAtErrors failure' (o.after more) (o.bind k) := by
    cases o with
    | done a s => exact hk a s
    | fault | outOfFuel => exact .nil _
  refine ⟨List.pairwise_append.2 ⟨h.onlyEnds, hnext.onlyEnds, ?_⟩, ?_⟩
  · intro ev hev later hlater e t hf
    rw [h.outcome ev hev e t hf] at hlater
    exact absurd hlater (by simp [Outcome.after, hmore])
  · intro ev hev e t hf
    rcases List.mem_append.1 hev with hev | hev
    · rw [h.outcome ev hev e t hf]
      exact hfail e t
    · exact hnext.outcome ev hev e t hf

end EndsAtErrors

/-- Carrying out a plan that hands on errors. -/
theorem Plan.PassesErrors.endsAtErrors {α : Type} {failure : RuntimeError → α} {p : Plan α}
    {fuel : Nat} (h : p.PassesErrors failure)
    (ih : ∀ v : Visit, EndsAtErrors v.job.failure (v.trace fuel) (v.run fuel)) :
    EndsAtErrors failure ((p.visits fuel).flatMap (Visit.trace fuel)) (p.run fuel) := by
  induction p with
  | stop o => exact .nil o
  | ask v k ihk =>
    rw [flatMap_visits_ask]
    refine (ih v).bind (fun r s => ihk r s (h.2 r s)) ?_ ?_
    · intro e t
      rw [h.1 e t]
      rfl
    · intro e t
      rw [h.1 e t]
      rfl

/-- **In every evaluation an error ends everything**, by induction on the bound: what it is made
    of ends at errors, and its own end comes after that. -/
theorem Visit.endsAtErrors (fuel : Nat) (v : Visit) :
    EndsAtErrors v.job.failure (v.trace fuel) (v.run fuel) := by
  induction fuel generalizing v with
  | zero => exact .nil _
  | succ fuel ih =>
    have hplan : v.plan.PassesErrors v.job.failure := v.job.plan_passesErrors
    have hparts : EndsAtErrors v.job.failure ((v.plan.visits fuel).flatMap (trace fuel))
        (v.run (fuel + 1)) := by
      rw [run_succ]
      exact hplan.endsAtErrors ih
    -- If one of these has failed, this evaluation ends with the same error.
    have hending : ∀ e t, v.run (fuel + 1) = .done (v.job.failure e) t →
        ∀ ev ∈ v.ending (v.run (fuel + 1)), ev.Fails e t := by
      intro e t hrun ev hev
      rw [hrun] at hev
      rw [List.mem_singleton.1 hev]
      exact ⟨rfl, rfl⟩
    refine ⟨List.pairwise_cons.2 ⟨fun _ _ _ _ => False.elim, ?_⟩, ?_⟩
    · refine List.pairwise_append.2 ⟨hparts.onlyEnds, ?_, ?_⟩
      · cases v.run (fuel + 1) <;> simp [ending]
      · exact fun ev hev later hlater e t hf =>
          hending e t (hparts.outcome ev hev e t hf) later hlater
    · intro ev hev e t hf
      rcases List.mem_cons.1 hev with rfl | hev
      · exact hf.elim
      rcases List.mem_append.1 hev with hev | hev
      · exact hparts.outcome ev hev e t hf
      · cases hrun : v.run (fuel + 1) with
        | done r u =>
          rw [hrun] at hev
          rw [List.mem_singleton.1 hev] at hf
          rw [hf.1, hf.2]
        | fault | outOfFuel =>
          rw [hrun] at hev
          exact absurd hev (by simp [ending])

/-- The statements of a program end at the first error, as those of a block do. -/
theorem program_endsAtErrors (fuel : Nat) (ctx : Context) (ss : List Stmt) (last : Result)
    (s : Store) :
    EndsAtErrors failed (programTrace ctx fuel ss s) (program fuel ctx ss last s) := by
  induction fuel generalizing ss last s with
  | zero => exact .nil _
  | succ fuel ih =>
    cases ss with
    | nil => exact .nil _
    | cons st ss =>
      rw [program, programTrace]
      -- Only a value lets the program go on, and an error is none.
      refine (Visit.endsAtErrors fuel ⟨.stmt st, ctx, s⟩).bind ?_ (fun _ _ => rfl) fun _ _ => rfl
      intro r t
      cases r with
      | none => exact ih ss none t
      | some v =>
        cases v with
        | ret | err | brk => exact .nil _
        | _ => exact ih ss _ t

end Eval

namespace Node

/-- **In every evaluation of a tree an error ends everything.**  For a program the statements are
    gone through one by one, since it unwraps returns where a block hands them on. -/
theorem endsAtErrors (fuel : Nat) (ctx : Context) (n : Node) (s : Store) :
    Eval.EndsAtErrors Eval.failed (n.trace fuel ctx s) (n.evalWithin fuel ctx s) := by
  cases n with
  | program p => exact Eval.program_endsAtErrors fuel ctx p.stmts none s
  | stmt st => exact Eval.Visit.endsAtErrors fuel ⟨.stmt st, ctx, s⟩
  | expr e => exact Eval.Visit.endsAtErrors fuel ⟨.expr e, ctx, s⟩

/-- **An error is never lost, and nothing comes after it.**  Whatever is evaluated while a tree is,
    wherever it stands and however deeply it is called: if it fails, so does the tree, with the same
    error, and the store at the end is the one of that moment.  After it no evaluation begins: all
    that is left is that those under way end with the error. -/
theorem failure_is_final {fuel : Nat} {ctx : Context} {n : Node} {s t : Store} {ev : Eval.Event}
    {e : RuntimeError} (hev : ev ∈ n.trace fuel ctx s) (hf : ev.Fails e t) :
    n.evalWithin fuel ctx s = .done (some (.err e)) t ∧
      ∀ before after, n.trace fuel ctx s = before ++ ev :: after →
        ∀ later ∈ after, later.Fails e t := by
  have hends := n.endsAtErrors fuel ctx s
  refine ⟨hends.outcome ev hev e t hf, fun before after htrace later hlater => ?_⟩
  have honly := hends.onlyEnds
  rw [htrace] at honly
  have hafter := (List.pairwise_cons.1 (List.pairwise_append.1 honly).2.1).1
  exact hafter later hlater e t hf

end Node

/-- A function whose body has a name that is not bound: `operacion(x) { x + y }`. -/
def Closure.addsUnbound : Closure :=
  let sum : Expr := .binary ⟨.plus, "+"⟩ (.ident (.ofToken ⟨.ident, "x"⟩)) "+"
    (.ident (.ofToken ⟨.ident, "y"⟩))
  let body : Block := .mk ⟨.lbrace, "\x7b"⟩ [.expr ⟨.ident, "x"⟩ sum]
  ⟨⟨.kwFunction, "operacion"⟩, [some (.ofToken ⟨.ident, "x"⟩)], body, [0], 0⟩

/-- Binds the function to `f`, and goes on with `f(1) + f(2); incognita x = 3`. -/
def Program.callsAddsUnbound : Program :=
  let callF (literal : String) (n : Int64) : Expr :=
    .call ⟨.lparen, "("⟩ (.ident (.ofToken ⟨.ident, "f"⟩)) [.int ⟨.int, literal⟩ (some n)]
  let f : Closure := .addsUnbound
  ⟨[.bind ⟨.kwLet, "incognita"⟩ (some (.ofToken ⟨.ident, "f"⟩)) (.fn f.token f.params f.body),
    .expr ⟨.ident, "f"⟩ (.binary ⟨.plus, "+"⟩ (callF "1" 1) "+" (callF "2" 2)),
    .bind ⟨.kwLet, "incognita"⟩ (some (.ofToken ⟨.ident, "x"⟩)) (.int ⟨.int, "3"⟩ (some 3))]⟩

/-- The store during the first of the two calls. -/
def Store.inAddsUnbound : Store :=
  ⟨#[[("f", .fn .addsUnbound)], [("x", .int 1)]], [⟨.addsUnbound, 1⟩], 1⟩

/-- The error of the first call is that of the program.  There is neither a second call nor a
    binding of `x`. -/
theorem Node.addsUnbound_is_final :
    let ev : Eval.Event := .ended
      ⟨.expr (.ident (.ofToken ⟨.ident, "y"⟩)), ⟨⟨1, [0]⟩, 1, 10⟩, .inAddsUnbound⟩
      (some (.err (.unbound "y"))) .inAddsUnbound
    let trace := (Node.program .callsAddsUnbound).trace 20 ⟨.root, 0, 10⟩ .initial
    ev ∈ trace ∧ ev.Fails (.unbound "y") .inAddsUnbound ∧
      (Node.program .callsAddsUnbound).evalWithin 20 ⟨.root, 0, 10⟩ .initial =
        .done (some (.err (.unbound "y"))) .inAddsUnbound ∧
      ∀ before after, trace = before ++ ev :: after →
        ∀ later ∈ after, later.Fails (.unbound "y") .inAddsUnbound := by
  intro ev trace
  have hev : ev ∈ trace := List.mem_of_getElem? (i := 23) rfl
  have hf : ev.Fails (.unbound "y") .inAddsUnbound := ⟨rfl, rfl⟩
  exact ⟨hev, hf, failure_is_final hev hf⟩

end Incognita
