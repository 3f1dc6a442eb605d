import Incognita.Eval

namespace Incognita

/-!
# Evaluator — running trees one after another

An evaluator is used again and again, and what it needs to know of the evaluation it
is in is part of it: the environment, and how many calls are under way. Both are
changed where a function is entered and put back where it is left, and an
environment that a tree is to be evaluated in is put in the place of the one before
and taken out again.

The evaluations are those of `Eval`, but for what they hand on: there every
evaluation is told its environment and its depth, and here it finds them in the
evaluator.

* `Evaluator` — the state of an evaluator;
* `Ending` — how an evaluation ends for it;
* `Evaluator.enter`, `Evaluator.leave` — what a call does to it before and after the
  body of the function;
* `Evaluator.expr`, `Evaluator.stmt`, `Evaluator.block`, `Evaluator.call` — the
  evaluations;
* `Evaluator.program` — the statements of a program, where signals end;
* `Evaluator.evaluate` — any tree in an environment.
-/

/-- The state of an evaluator. There is no environment while it is not in use. -/
structure Evaluator where
  env : Option Env
  depth : Nat
  limit : Nat
  store : Store

/-- How an evaluation ends. -/
inductive Ending (α : Type) where
  /-- With a result and the evaluator after it. -/
  | done (result : α) (after : Evaluator)
  /-- At something that is missing and without which there is no going on. -/
  | fault
  /-- At the bound on the nesting of evaluations. -/
  | outOfFuel

namespace Ending

/-- Goes on with the result. -/
@[inline] def bind {α β : Type} (o : Ending α) (k : α → Evaluator → Ending β) : Ending β :=
  match o with
  | .done a m => k a m
  | .fault => .fault
  | .outOfFuel => .outOfFuel

/-- Goes on with the value of an operand, unless it is a signal. -/
@[inline] def operand (o : Ending Result) (k : Value → Evaluator → Ending Result) :
    Ending Result :=
  o.bind fun r m =>
    let v := r.getD .null
    if v.isSignal then .done (some v) m else k v m

end Ending

namespace Evaluator

/-- Ends with a value. -/
@[inline] def value (v : Value) (m : Evaluator) : Ending Result := .done (some v) m

/-- The scopes that a function made now is made in. -/
def path (m : Evaluator) : List ScopeId := (m.env.map Env.path).getD []

/-- The value of a name, or the error that it has none. Names are looked up in an
    environment only. -/
def lookUp (name : String) (m : Evaluator) : Ending Result :=
  match m.env with
  | none => .fault
  | some env =>
    match m.store.get? env.path name with
    | some v => m.value v
    | none => m.value (.err (.unbound name))

/-- Binds a name in the innermost scope of the environment. -/
def bindName (name : String) (v : Value) (m : Evaluator) : Ending Result :=
  match m.env with
  | none => .fault
  | some env => .done none { m with store := m.store.set env.scope name v }

/-- The evaluator as the body of a function finds it: one call deeper, in a new scope
    inside those that the function was made in, and with the call noted down. -/
def enter (m : Evaluator) (c : Closure) (names : List Ident) (vs : List Value) : Evaluator :=
  let (env, store) := m.store.alloc c.scopes (bindParams names vs)
  { m with env := some env, depth := m.depth + 1, store := store.logCall c (m.depth + 1) }

/-- The evaluator after the body of a function that was entered from `caller`: one call
    less is under way, and the environment is that of the caller. -/
def leave (m caller : Evaluator) : Evaluator := { m with env := caller.env, depth := m.depth - 1 }

mutual

/-- The value of an expression. -/
def expr : Nat → Expr → Evaluator → Ending Result
  | 0, _, _ => .outOfFuel
  | fuel + 1, e, m =>
    match e with
    | .missing => m.value (.err .invalidNode)
    | .ident name => m.lookUp name.name
    | .int t none => m.value (.err (.invalidInteger t.literal))
    | .int _ (some n) => m.value (.int n)
    | .bool _ b => m.value (.bool b)
    | .str _ v => m.value (.str v)
    | .unary _ op e => (expr fuel e m).operand fun v m => m.value (v.unary op)
    | .binary _ l op r =>
      (expr fuel l m).operand fun v m =>
        if op = "&&" then if v.truthy then logical fuel r m else m.value (.bool false)
        else if op = "||" then if v.truthy then m.value (.bool true) else logical fuel r m
        else (expr fuel r m).operand fun w m => m.value (Value.binary op v w)
    | .choice _ c a b =>
      (expr fuel c m).operand fun v m =>
        if v.truthy then block fuel a m
        else if b.isMissing then m.value .null
        else block fuel b m
    | .loop _ c b => loop fuel c b m
    | .fn t ps b =>
      let (c, store) := m.store.newClosure t ps b m.path
      { m with store := store }.value (.fn c)
    | .call _ f as =>
      (expr fuel f m).operand fun v m =>
        (args fuel as m).bind fun vs m =>
          match vs with
          | .ok vs => call fuel v vs m
          | .error signal => m.value signal

/-- The right operand of a logical operator, as a truth value. -/
def logical : Nat → Expr → Evaluator → Ending Result
  | 0, _, _ => .outOfFuel
  | fuel + 1, e, m => (expr fuel e m).operand fun v m => m.value (.bool v.truthy)

/-- The values of arguments, from left to right, or the first signal among them. -/
def args : Nat → List Expr → Evaluator → Ending (Except Value (List Value))
  | 0, _, _ => .outOfFuel
  | _ + 1, [], m => .done (.ok []) m
  | fuel + 1, e :: es, m =>
    (expr fuel e m).bind fun r m =>
      let v := r.getD .null
      if v.isSignal then .done (.error v) m
      else (args fuel es m).bind fun vs m => .done (vs.map (v :: ·)) m

/-- A call of a value with the values of its arguments. -/
def call : Nat → Value → List Value → Evaluator → Ending Result
  | 0, _, _, _ => .outOfFuel
  | fuel + 1, f, vs, m =>
    match f with
    | .fn c =>
      if c.params.length ≠ vs.length then
        m.value (.err (.wrongArity c.params.length vs.length))
      else if m.limit ≤ m.depth then m.value (.err (.tooDeep m.limit))
      else
        match Ident.present? c.params with
        | none => .fault
        | some names =>
          (block fuel c.body (m.enter c names vs)).bind fun r after =>
            (after.leave m).value (Eval.unwrap r)
    | f => m.value (.err (.notCallable f.kind))

/-- Runs the body while the condition holds. -/
def loop : Nat → Expr → Block → Evaluator → Ending Result
  | 0, _, _, _ => .outOfFuel
  | fuel + 1, c, b, m =>
    (expr fuel c m).operand fun v m =>
      if v.truthy then
        (block fuel b m).bind fun r m =>
          match r with
          | some .brk => m.value .null
          | some (.ret v) => m.value (.ret v)
          | some (.err e) => m.value (.err e)
          | _ => loop fuel c b m
      else m.value .null

/-- Runs a block. -/
def block : Nat → Block → Evaluator → Ending Result
  | 0, _, _ => .outOfFuel
  | _ + 1, .missing, _ => .fault
  | fuel + 1, .mk _ ss, m => stmts fuel ss none m

/-- Runs statements one after another, up to the first signal. The result is that of
    the last statement run, or `last` when there is none. -/
def stmts : Nat → List Stmt → Result → Evaluator → Ending Result
  | 0, _, _, _ => .outOfFuel
  | _ + 1, [], last, m => .done last m
  | fuel + 1, st :: ss, _, m =>
    (stmt fuel st m).bind fun r m =>
      if Result.isSignal r then .done r m else stmts fuel ss r m

/-- Runs a statement. -/
def stmt : Nat → Stmt → Evaluator → Ending Result
  | 0, _, _ => .outOfFuel
  | fuel + 1, st, m =>
    match st with
    | .missing => m.value (.err .invalidNode)
    | .bind _ name e =>
      (expr fuel e m).operand fun v m =>
        match name with
        | some x => m.bindName x.name v
        | none => .fault
    | .ret _ e =>
      if e.isMissing then m.value (.ret .null)
      else (expr fuel e m).operand fun v m => m.value (.ret v)
    | .brk _ => m.value .brk
    | .expr _ e => expr fuel e m
    | .block b => block fuel b m

end

/-- Runs the statements of a program one after another. A return ends it with its
    value, an error ends it, and a break is an error. -/
def program : Nat → List Stmt → Result → Evaluator → Ending Result
  | 0, _, _, _ => .outOfFuel
  | _ + 1, [], last, m => .done last m
  | fuel + 1, st :: ss, _, m =>
    (stmt fuel st m).bind fun r m =>
      match r with
      | some (.ret v) => m.value v
      | some (.err e) => m.value (.err e)
      | some .brk => m.value (.err .strayBreak)
      | r => program fuel ss r m

/-- Runs a tree in the environment that the evaluator is in. -/
def run (fuel : Nat) (m : Evaluator) : Node → Ending Result
  | .program p => program fuel p.stmts none m
  | .stmt s => stmt fuel s m
  | .expr e => expr fuel e m

/-- Evaluates a tree in an environment, and goes back to the one before. -/
def evaluate (fuel : Nat) (m : Evaluator) (n : Node) (env : Env) : Ending Result :=
  (run fuel { m with env := some env } n).bind fun r after =>
    .done r { after with env := m.env }

end Evaluator

end Incognita
