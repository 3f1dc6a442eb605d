import Incognita.Proofs.Jobs

namespace Incognita

/-!
# Eval — the evaluations that an evaluation makes

An evaluation makes other evaluations, one after another, and each of them may depend on what the
ones before it gave.  A `Plan` says which these are, without carrying any of them out.  So what
happens while something is evaluated can be told as a sequence of events: evaluations begin, make
others, and end.

* `Outcome.after`, `Outcome.Sat.bind_after` — what comes after an evaluation that ends;
* `Eval.Visit` — an evaluation that is to be made;
* `Eval.Plan`, `Eval.Job.plan` — what an evaluation makes of others, and how it goes on with them;
* `Eval.Job.run_succ` — to evaluate is to carry out the plan;
* `Eval.Event`, `Eval.Visit.trace`, `Node.trace` — all that happens during an evaluation, in order;
* `Eval.Plan.Meets`, `Eval.Visit.meets` — what every plan keeps up is kept up by every
  evaluation, and all along its trace.
-/

/-- What comes after an evaluation that ends, where nothing comes after one that does not. -/
def Outcome.after {α β : Type} (o : Outcome α) (k : α → Store → List β) : List β :=
  match o with
  | .done a s => k a s
  | .fault | .outOfFuel => []

/-- What holds of all that an evaluation comes with, and of all that the one after it comes
    with. -/
theorem Outcome.Sat.bind_after {α β γ : Type} {F : Prop} {P : β → Prop} {Q : α → Store → Prop}
    {R : γ → Store → Prop} {o : Outcome α} {bs : List β} {more : α → Store → List β}
    {k : α → Store → Outcome γ} (ho : o.Sat F Q) (hbs : ∀ b ∈ bs, P b)
    (hk : ∀ a s, Q a s → (∀ b ∈ more a s, P b) ∧ (k a s).Sat F R) :
    (∀ b ∈ bs ++ o.after more, P b) ∧ (o.bind k).Sat F R := by
  have hafter : ∀ b ∈ o.after more, P b := by
    cases o with
    | done a s => exact (hk a s ho).1
    | fault | outOfFuel => simp [after]
  refine ⟨?_, ho.bind fun a s ha => (hk a s ha).2⟩
  intro b hb
  rcases List.mem_append.1 hb with hb | hb
  · exact hbs b hb
  · exact hafter b hb

namespace Eval

/-! ### Plans -/

/-- An evaluation that is to be made: what is evaluated, where, and in which store. -/
structure Visit where
  /-- What is evaluated. -/
  job : Job
  /-- Where it is evaluated. -/
  ctx : Context
  /-- What is bound when it begins. -/
  store : Store

/-- What the evaluation gives under a bound. -/
def Visit.run (fuel : Nat) (v : Visit) : Outcome v.job.Result := v.job.run fuel v.ctx v.store

/-- What is left to do in an evaluation. -/
inductive Plan (α : Type) where
  /-- It is over. -/
  | stop (o : Outcome α)
  /-- Another evaluation is made, and what it gives tells how to go on. -/
  | ask (v : Visit) (k : v.job.Result → Store → Plan α)

namespace Plan

variable {α : Type}

/-- Carries out a plan, where the evaluations that are asked for have the bound `fuel`. -/
def run (fuel : Nat) : Plan α → Outcome α
  | stop o => o
  | ask v k => (v.run fuel).bind fun r s => (k r s).run fuel

/-- The evaluations that are made when a plan is carried out, in order. -/
def visits (fuel : Nat) : Plan α → List Visit
  | stop _ => []
  | ask v k => v :: (v.run fuel).after fun r s => (k r s).visits fuel

/-- It is over, with a value. -/
def value (v : Value) (s : Store) : Plan Result := stop (.done (some v) s)

/-- Does what another evaluation does. -/
def last (v : Visit) : Plan v.job.Result := ask v fun r s => stop (.done r s)

/-- Evaluates an operand, and goes on with its value unless that is a signal. -/
def operand (ctx : Context) (e : Expr) (s : Store) (k : Value → Store → Plan Result) :
    Plan Result :=
  ask ⟨.expr e, ctx, s⟩ fun r s =>
    if (r.getD .null).isSignal then value (r.getD .null) s else k (r.getD .null) s

/-- What is asked for first comes first, and the others come behind it if it ends. -/
theorem flatMap_visits_ask {β : Type} (f : Visit → List β) (fuel : Nat) (v : Visit)
    (k : v.job.Result → Store → Plan α) :
    ((ask v k).visits fuel).flatMap f =
      f v ++ (v.run fuel).after fun r s => ((k r s).visits fuel).flatMap f := by
  rw [visits, List.flatMap_cons]
  cases v.run fuel <;> rfl

/-- A plan that does what another evaluation does gives what that one gives. -/
theorem run_last (fuel : Nat) (v : Visit) : (last v).run fuel = v.run fuel := by
  show (v.run fuel).bind (fun r s => .done r s) = v.run fuel
  cases v.run fuel <;> rfl

/-- Carrying out a plan that depends on a condition. -/
theorem run_ite {fuel : Nat} {c : Prop} [Decidable c] {p q : Plan α} :
    (if c then p else q).run fuel = if c then p.run fuel else q.run fuel := by
  by_cases hc : c
  · rw [if_pos hc, if_pos hc]
  · rw [if_neg hc, if_neg hc]

/-- An operand is evaluated as `Outcome.operand` has it. -/
theorem run_operand {fuel : Nat} {ctx : Context} {e : Expr} {s : Store}
    {k : Value → Store → Plan Result} :
    (operand ctx e s k).run fuel = (expr fuel ctx e s).operand fun v s => (k v s).run fuel := by
  simp only [operand, run, run_ite]
  rfl

end Plan

/-- The plan for an expression. -/
def exprPlan (ctx : Context) (s : Store) : Expr → Plan Result
  | .missing => .value (.err .invalidNode) s
  | .ident x => .value ((s.get? ctx.env.path x.name).getD (.err (.unbound x.name))) s
  | .int t none => .value (.err (.invalidInteger t.literal)) s
  | .int _ (some n) => .value (.int n) s
  | .bool _ b => .value (.bool b) s
  | .str _ v => .value (.str v) s
  | .unary _ op e => .operand ctx e s fun v s => .value (v.unary op) s
  | .binary _ l op r =>
    .operand ctx l s fun v s =>
      if op = "&&" then if v.truthy then .last ⟨.logical r, ctx, s⟩ else .value (.bool false) s
      else if op = "||" then if v.truthy then .value (.bool true) s else .last ⟨.logical r, ctx, s⟩
      else .operand ctx r s fun w s => .value (Value.binary op v w) s
  | .choice _ c a b =>
    .operand ctx c s fun v s =>
      if v.truthy then .last ⟨.block a, ctx, s⟩
      else if b.isMissing then .value .null s
      else .last ⟨.block b, ctx, s⟩
  | .loop _ c b => .last ⟨.loop c b, ctx, s⟩
  | .fn t xs b =>
    .value (.fn (s.newClosure t xs b ctx.env.path).1) (s.newClosure t xs b ctx.env.path).2
  | .call _ f as =>
    .operand ctx f s fun v s =>
      .ask ⟨.args as, ctx, s⟩ fun vs s =>
        match vs with
        | .ok vs => .last ⟨.call v vs, ctx, s⟩
        | .error signal => .value signal s

/-- The plan for arguments. -/
def argsPlan (ctx : Context) (s : Store) : List Expr → Plan (Except Value (List Value))
  | [] => .stop (.done (.ok []) s)
  | e :: es =>
    .ask ⟨.expr e, ctx, s⟩ fun r s =>
      if (r.getD .null).isSignal then .stop (.done (.error (r.getD .null)) s)
      else .ask ⟨.args es, ctx, s⟩ fun vs s => .stop (.done (vs.map (r.getD .null :: ·)) s)

/-- The evaluation of the body of a function whose parameters have these names, called with
    some values. -/
def bodyVisit (ctx : Context) (s : Store) (c : Closure) (names : List Ident) (vs : List Value) :
    Visit :=
  let (env, s) := s.alloc c.scopes (bindParams names vs)
  ⟨.block c.body, ⟨env, ctx.depth + 1, ctx.limit⟩, s.logCall c (ctx.depth + 1)⟩

/-- The plan for a call. -/
def callPlan (ctx : Context) (s : Store) (vs : List Value) : Value → Plan Result
  | .fn c =>
    if c.params.length ≠ vs.length then
      .value (.err (.wrongArity c.params.length vs.length)) s
    else if ctx.limit ≤ ctx.depth then .value (.err (.tooDeep ctx.limit)) s
    else
      match Ident.present? c.params with
      | none => .stop .fault
      | some names => .ask (bodyVisit ctx s c names vs) fun r s => .value (unwrap r) s
  | f => .value (.err (.notCallable f.kind)) s

/-- How a loop goes on when its body has ended with a result. -/
def afterBody (ctx : Context) (c : Expr) (b : Block) (r : Result) (s : Store) : Plan Result :=
  match r with
  | some .brk => .value .null s
  | some (.ret v) => .value (.ret v) s
  | some (.err e) => .value (.err e) s
  | _ => .last ⟨.loop c b, ctx, s⟩

/-- The plan for a loop. -/
def loopPlan (ctx : Context) (s : Store) (c : Expr) (b : Block) : Plan Result :=
  .operand ctx c s fun v s =>
    if v.truthy then .ask ⟨.block b, ctx, s⟩ fun r s => afterBody ctx c b r s
    else .value .null s

/-- The plan for statements. -/
def stmtsPlan (ctx : Context) (s : Store) (last : Result) : List Stmt → Plan Result
  | [] => .stop (.done last s)
  | st :: ss =>
    .ask ⟨.stmt st, ctx, s⟩ fun r s =>
      if Result.isSignal r then .stop (.done r s) else .last ⟨.stmts ss r, ctx, s⟩

/-- The plan for a statement. -/
def stmtPlan (ctx : Context) (s : Store) : Stmt → Plan Result
  | .missing => .value (.err .invalidNode) s
  | .bind _ x e =>
    .operand ctx e s fun v s =>
      match x with
      | some x => .stop (.done none (s.set ctx.env.scope x.name v))
      | none => .stop .fault
  | .ret _ e =>
    if e.isMissing then .value (.ret .null) s else .operand ctx e s fun v s => .value (.ret v) s
  | .brk _ => .value .brk s
  | .expr _ e => .last ⟨.expr e, ctx, s⟩
  | .block b => .last ⟨.block b, ctx, s⟩

/-- The plan for an evaluation. -/
def Job.plan (ctx : Context) (s : Store) : (j : Job) → Plan j.Result
  | .expr e => exprPlan ctx s e
  | .logical e => .operand ctx e s fun v s => .value (.bool v.truthy) s
  | .args es => argsPlan ctx s es
  | .call f vs => callPlan ctx s vs f
  | .loop c b => loopPlan ctx s c b
  | .block .missing => .stop .fault
  | .block (.mk _ ss) => .last ⟨.stmts ss none, ctx, s⟩
  | .stmts ss last => stmtsPlan ctx s last ss
  | .stmt st => stmtPlan ctx s st

/-! ### To evaluate is to carry out the plan -/

variable {fuel : Nat} {ctx : Context} {s : Store}

/-- An expression is evaluated as its plan says. -/
theorem expr_succ_eq (e : Expr) : expr (fuel + 1) ctx e s = (exprPlan ctx s e).run fuel := by
  cases e with
  | missing | bool | str | fn => simp only [expr, exprPlan]; rfl
  | ident x => rw [expr_ident]; rfl
  | int t v => cases v <;> simp only [expr, exprPlan] <;> rfl
  | unary t op e =>
    rw [exprPlan, Plan.run_operand, expr]
    rfl
  | binary t l op r =>
    rw [exprPlan, Plan.run_operand, expr]
    refine congrArg _ (funext fun v => funext fun s => ?_)
    have hlogical := Plan.run_last fuel ⟨.logical r, ctx, s⟩
    rw [Plan.run_ite, Plan.run_ite, Plan.run_ite, Plan.run_ite, Plan.run_operand, hlogical]
    rfl
  | choice t c a b =>
    rw [exprPlan, Plan.run_operand, expr_choice]
    refine congrArg _ (funext fun v => funext fun s => ?_)
    rw [Plan.run_ite, Plan.run_ite, Plan.run_last fuel ⟨.block a, ctx, s⟩,
      Plan.run_last fuel ⟨.block b, ctx, s⟩]
    rfl
  | loop t c b =>
    rw [exprPlan, Plan.run_last, expr]
    rfl
  | call t f as =>
    rw [exprPlan, Plan.run_operand, expr]
    refine congrArg _ (funext fun v => funext fun s => congrArg _ (funext fun vs => ?_))
    funext s
    cases vs with
    | ok vs => exact (Plan.run_last fuel ⟨.call v vs, ctx, s⟩).symm
    | error signal => rfl

/-- So are arguments. -/
theorem args_succ_eq (es : List Expr) :
    args (fuel + 1) ctx es s = (argsPlan ctx s es).run fuel := by
  cases es with
  | nil => rw [args]; rfl
  | cons e es =>
    rw [args]
    simp only [argsPlan, Plan.run, Plan.run_ite]
    rfl

/-- So is a call. -/
theorem call_succ_eq (f : Value) (vs : List Value) :
    call (fuel + 1) ctx f vs s = (callPlan ctx s vs f).run fuel := by
  cases f with
  | fn c =>
    rw [call, callPlan]
    simp only [Plan.run_ite]
    cases Ident.present? c.params <;> rfl
  | _ => simp only [call, callPlan]; rfl

/-- So is a loop. -/
theorem loop_succ_eq (c : Expr) (b : Block) :
    loop (fuel + 1) ctx c b s = (loopPlan ctx s c b).run fuel := by
  rw [loop, loopPlan, Plan.run_operand]
  refine congrArg _ (funext fun v => funext fun s => ?_)
  rw [Plan.run_ite]
  refine ite_congr rfl (fun _ => ?_) (fun _ => rfl)
  refine congrArg _ (funext fun r => funext fun s => ?_)
  -- A body that ends with a signal ends the loop, and any other one leads to the next round.
  have hnext := Plan.run_last fuel ⟨.loop c b, ctx, s⟩
  cases r with
  | none => exact hnext.symm
  | some v => cases v <;> first | rfl | exact hnext.symm

/-- So are statements. -/
theorem stmts_succ_eq (ss : List Stmt) (last : Result) :
    stmts (fuel + 1) ctx ss last s = (stmtsPlan ctx s last ss).run fuel := by
  cases ss with
  | nil => rw [stmts]; rfl
  | cons st ss =>
    rw [stmts]
    refine congrArg _ (funext fun r => funext fun s => ?_)
    rw [Plan.run_ite, Plan.run_last fuel ⟨.stmts ss r, ctx, s⟩]
    rfl

/-- So is a statement. -/
theorem stmt_succ_eq (st : Stmt) : stmt (fuel + 1) ctx st s = (stmtPlan ctx s st).run fuel := by
  cases st with
  | missing | brk => simp only [stmt, stmtPlan]; rfl
  | bind t x e =>
    rw [stmt, stmtPlan, Plan.run_operand]
    cases x <;> rfl
  | ret t e =>
    rw [stmtPlan, Plan.run_ite]
    cases e with
    | missing => rw [stmt]; rfl
    | _ => rw [Plan.run_operand, stmt_ret (by simp)]; rfl
  | expr t e =>
    rw [stmt, stmtPlan, Plan.run_last]
    rfl
  | block b =>
    rw [stmt, stmtPlan, Plan.run_last]
    rfl

/-- **To evaluate is to carry out the plan.**  Each evaluation function is one `plan` for each
    constructor; what they do with the results of their parts is written down once, in `Plan.run`.
    -/
theorem Job.run_succ (j : Job) : j.run (fuel + 1) ctx s = (j.plan ctx s).run fuel := by
  cases j with
  | expr e => exact expr_succ_eq e
  | logical e =>
    have hlogical : Eval.logical (fuel + 1) ctx e s =
        (Plan.operand ctx e s fun v s => .value (.bool v.truthy) s).run fuel := by
      rw [Eval.logical, Plan.run_operand]
      rfl
    exact hlogical
  | args es => exact args_succ_eq es
  | call f vs => exact call_succ_eq f vs
  | loop c b => exact loop_succ_eq c b
  | block b =>
    cases b with
    | missing =>
      show Eval.block (fuel + 1) ctx .missing s = .fault
      rw [Eval.block]
    | mk t ss =>
      show Eval.block (fuel + 1) ctx (.mk t ss) s = _
      rw [Eval.block]
      exact (Plan.run_last fuel ⟨.stmts ss none, ctx, s⟩).symm
  | stmts ss last => exact stmts_succ_eq ss last
  | stmt st => exact stmt_succ_eq st

/-! ### What happens during an evaluation -/

/-- Something that happens while a tree is evaluated. -/
inductive Event where
  /-- An evaluation begins. -/
  | began (v : Visit)
  /-- An evaluation ends with a result and a store. -/
  | ended (v : Visit) (r : v.job.Result) (s : Store)

namespace Visit

/-- The plan for the evaluation. -/
def plan (v : Visit) : Plan v.job.Result := v.job.plan v.ctx v.store

/-- The end of the evaluation, if it comes to one. -/
def ending (v : Visit) : Outcome v.job.Result → List Event
  | .done r s => [.ended v r s]
  | .fault | .outOfFuel => []

/-- All that happens during the evaluation, in order.  Where the bound is used up, nothing does. -/
def trace : Nat → Visit → List Event
  | 0, _ => []
  | fuel + 1, v =>
    .began v :: ((v.plan.visits fuel).flatMap (trace fuel) ++ v.ending (v.run (fuel + 1)))

/-- Under the bound zero a visit does not end. -/
theorem run_zero (v : Visit) : v.run 0 = .outOfFuel := Job.run_zero v.ctx v.store v.job

/-- A visit is its plan, carried out under the bound before. -/
theorem run_succ (fuel : Nat) (v : Visit) : v.run (fuel + 1) = v.plan.run fuel := v.job.run_succ

end Visit

/-- All that happens while the statements of a program are run, in order. -/
def programTrace (ctx : Context) : Nat → List Stmt → Store → List Event
  | 0, _, _ => []
  | _ + 1, [], _ => []
  | fuel + 1, st :: ss, s =>
    Visit.trace fuel ⟨.stmt st, ctx, s⟩ ++ (stmt fuel ctx st s).after fun r t =>
      if Result.isSignal r then [] else programTrace ctx fuel ss t

/-! ### What every evaluation keeps up -/

/-- What is asked of an evaluation before it begins and promised of what it gives.  Whether it may
    meet a missing part is up to `mayFault`. -/
structure Contract where
  /-- What an evaluation may rely on when it begins. -/
  pre : Visit → Prop
  /-- What it gives when it ends. -/
  post : (v : Visit) → v.job.Result → Store → Prop
  /-- Whether it may come to a fault instead. -/
  mayFault : Prop

/-- The event is as the contract says. -/
def Event.Meets (C : Contract) : Event → Prop
  | began v => C.pre v
  | ended v r s => C.post v r s

/-- The plan asks only for what may be asked for, as long as the evaluations before it have given
    what they promise, and it stops with `Q`. -/
def Plan.Meets {α : Type} (C : Contract) (Q : α → Store → Prop) : Plan α → Prop
  | stop o => o.Sat C.mayFault Q
  | ask v k => C.pre v ∧ ∀ r s, C.post v r s → (k r s).Meets C Q

/-- Every plan does its part. -/
def Contract.Kept (C : Contract) : Prop := ∀ v, C.pre v → v.plan.Meets C (C.post v)

namespace Plan.Meets

variable {α : Type} {C : Contract} {Q : α → Store → Prop} {p q : Plan α} {fuel : Nat}

/-- A plan that depends on a condition meets a contract if each alternative does where it is
    taken. -/
theorem ite {c : Prop} [Decidable c] (hp : c → p.Meets C Q) (hq : ¬ c → q.Meets C Q) :
    (if c then p else q).Meets C Q := by
  split
  · next hc => exact hp hc
  · next hc => exact hq hc

/-- What does only what another evaluation does gives what that one gives. -/
theorem last {v : Visit} {Q : v.job.Result → Store → Prop} (hv : C.pre v)
    (hQ : ∀ r s, C.post v r s → Q r s) : (last v).Meets C Q :=
  ⟨hv, hQ⟩

/-- Carrying out a plan that does its part. -/
theorem run (h : p.Meets C Q)
    (ih : ∀ v, C.pre v → (∀ ev ∈ v.trace fuel, ev.Meets C) ∧
      (v.run fuel).Sat C.mayFault (C.post v)) :
    (∀ ev ∈ (p.visits fuel).flatMap (Visit.trace fuel), ev.Meets C) ∧
      (p.run fuel).Sat C.mayFault Q := by
  induction p with
  | stop o => exact ⟨by simp [visits], h⟩
  | ask v k ihk =>
    rw [flatMap_visits_ask]
    obtain ⟨htrace, hrun⟩ := ih v h.1
    exact hrun.bind_after htrace fun r s hr => ihk r s (h.2 r s hr)

end Plan.Meets

/-- **What every plan keeps up is kept up by every evaluation**, and all along its trace.  This is
    the induction on the bound that all properties of evaluations and their events share. -/
theorem Visit.meets {C : Contract} (hC : C.Kept) (fuel : Nat) (v : Visit) (hv : C.pre v) :
    (∀ ev ∈ v.trace fuel, ev.Meets C) ∧ (v.run fuel).Sat C.mayFault (C.post v) := by
  induction fuel generalizing v with
  | zero =>
    rw [run_zero]
    exact ⟨by simp [trace], trivial⟩
  | succ fuel ih =>
    obtain ⟨hparts, hrun⟩ := (hC v hv).run ih
    rw [← run_succ] at hrun
    refine ⟨fun ev hev => ?_, hrun⟩
    -- It is the start of the visit, something that happens in a part, or the end of the visit.
    rcases List.mem_cons.1 hev with rfl | hev
    · exact hv
    rcases List.mem_append.1 hev with hev | hev
    · exact hparts ev hev
    · cases ho : v.run (fuel + 1) with
      | done r s =>
        rw [ho] at hrun hev
        rw [List.mem_singleton.1 hev]
        exact hrun
      | fault | outOfFuel => rw [ho] at hev; exact absurd hev (by simp [ending])

end Eval

/-- All that happens while a tree is evaluated, in order. -/
def Node.trace (fuel : Nat) (ctx : Context) (s : Store) : Node → List Eval.Event
  | .program p => Eval.programTrace ctx fuel p.stmts s
  | .stmt st => Eval.Visit.trace fuel ⟨.stmt st, ctx, s⟩
  | .expr e => Eval.Visit.trace fuel ⟨.expr e, ctx, s⟩

end Incognita
