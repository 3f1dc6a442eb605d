import Incognita.Store
import Incognita.Eval.Operators

namespace Incognita

/-!
# Eval — running a tree

An evaluation takes a store and gives a value, or none, and a store. Statements
that bind a name have no value; where a value is needed, null stands for none.

Every operand is evaluated before its operator, from left to right, and a signal
among the operands is the result. Blocks and loops run in the scope they stand in;
a call runs in a new scope inside the ones that its function was made in.

A program may run forever, so every function carries a bound on the nesting of
evaluations, and reaching it is an outcome of its own.

* `Outcome` — the result of an evaluation, a missing part that had to be there, or
  the bound reached;
* `Context` — the environment and how deeply calls are nested;
* `Eval.expr`, `Eval.stmt`, `Eval.block`, `Eval.call` — the evaluations;
* `Eval.program` — the statements of a program, where signals end;
* `Node.evalWithin`, `Node.eval` — any tree, under a given bound and under an ample one.
-/

/-- How an evaluation ends. -/
inductive Outcome (α : Type) where
  /-- With a result and a store. -/
  | done (result : α) (store : Store)
  /-- At a part of the tree that is missing and without which there is no going on. -/
  | fault
  /-- At the bound on the nesting of evaluations. -/
  | outOfFuel
  deriving Inhabited

/-- A value or none. -/
abbrev Result := Option Value

namespace Outcome

/-- Goes on with the result. -/
@[inline] def bind {α β : Type} (o : Outcome α) (k : α → Store → Outcome β) : Outcome β :=
  match o with
  | .done a s => k a s
  | .fault => .fault
  | .outOfFuel => .outOfFuel

/-- Goes on with the value of an operand, unless it is a signal. -/
@[inline] def operand (o : Outcome Result) (k : Value → Store → Outcome Result) :
    Outcome Result :=
  o.bind fun r s =>
    let v := r.getD .null
    if v.isSignal then .done (some v) s else k v s

end Outcome

/-- Where an evaluation takes place: its environment, how many calls are under way,
    and how many may be. -/
structure Context where
  env : Env
  depth : Nat
  limit : Nat

/-- Whether a result ends the statements it passes through. -/
def Result.isSignal : Result → Bool
  | some v => v.isSignal
  | none => false

namespace Eval

/-- What a call gives when its body has ended with a result. -/
def unwrap : Result → Value
  | none => .null
  | some (.ret v) => v
  | some .brk => .err .strayBreak
  | some v => v

mutual

/-- The value of an expression. -/
def expr : Nat → Context → Expr → Store → Outcome Result
  | 0, _, _, _ => .outOfFuel
  | fuel + 1, ctx, e, s =>
    match e with
    | .missing => .done (some (.err .invalidNode)) s
    | .ident name =>
      match s.get? ctx.env.path name.name with
      | some v => .done (some v) s
      | none => .done (some (.err (.unbound name.name))) s
    | .int t none => .done (some (.err (.invalidInteger t.literal))) s
    | .int _ (some n) => .done (some (.int n)) s
    | .bool _ b => .done (some (.bool b)) s
    | .str _ v => .done (some (.str v)) s
    | .unary _ op e => (expr fuel ctx e s).operand fun v s => .done (some (v.unary op)) s
    | .binary _ l op r =>
      (expr fuel ctx l s).operand fun v s =>
        if op = "&&" then
          if v.truthy then logical fuel ctx r s else .done (some (.bool false)) s
        else if op = "||" then
          if v.truthy then .done (some (.bool true)) s else logical fuel ctx r s
        else (expr fuel ctx r s).operand fun w s => .done (some (Value.binary op v w)) s
    | .choice _ c a b =>
      (expr fuel ctx c s).operand fun v s =>
        if v.truthy then block fuel ctx a s
        else match b with
          | .missing => .done (some .null) s
          | b => block fuel ctx b s
    | .loop _ c b => loop fuel ctx c b s
    | .fn t ps b =>
      let (c, s) := s.newClosure t ps b ctx.env.path
      .done (some (.fn c)) s
    | .call _ f as =>
      (expr fuel ctx f s).operand fun v s =>
        (args fuel ctx as s).bind fun vs s =>
          match vs with
          | .ok vs => call fuel ctx v vs s
          | .error signal => .done (some signal) s

/-- The right operand of a logical operator, as a truth value. -/
def logical : Nat → Context → Expr → Store → Outcome Result
  | 0, _, _, _ => .outOfFuel
  | fuel + 1, ctx, e, s => (expr fuel ctx e s).operand fun v s => .done (some (.bool v.truthy)) s

/-- The values of arguments, from left to right, or the first signal among them. -/
def args : Nat → Context → List Expr → Store → Outcome (Except Value (List Value))
  | 0, _, _, _ => .outOfFuel
  | _ + 1, _, [], s => .done (.ok []) s
  | fuel + 1, ctx, e :: es, s =>
    (expr fuel ctx e s).bind fun r s =>
      let v := r.getD .null
      if v.isSignal then .done (.error v) s
      else (args fuel ctx es s).bind fun vs s => .done (vs.map (v :: ·)) s

/-- A call of a value with the values of its arguments. -/
def call : Nat → Context → Value → List Value → Store → Outcome Result
  | 0, _, _, _, _ => .outOfFuel
  | fuel + 1, ctx, f, vs, s =>
    match f with
    | .fn c =>
      if c.params.length ≠ vs.length then
        .done (some (.err (.wrongArity c.params.length vs.length))) s
      else if ctx.limit ≤ ctx.depth then .done (some (.err (.tooDeep ctx.limit))) s
      else
        match Ident.present? c.params with
        | none => .fault
        | some names =>
          let (env, s) := s.alloc c.scopes (bindParams names vs)
          (block fuel ⟨env, ctx.depth + 1, ctx.limit⟩ c.body (s.logCall c (ctx.depth + 1))).bind
            fun r s => .done (some (unwrap r)) s
    | f => .done (some (.err (.notCallable f.kind))) s

/-- Runs the body while the condition holds. -/
def loop : Nat → Context → Expr → Block → Store → Outcome Result
  | 0, _, _, _, _ => .outOfFuel
  | fuel + 1, ctx, c, b, s =>
    (expr fuel ctx c s).operand fun v s =>
      if v.truthy then
        (block fuel ctx b s).bind fun r s =>
          match r with
          | some .brk => .done (some .null) s
          | some (.ret v) => .done (some (.ret v)) s
          | some (.err e) => .done (some (.err e)) s
          | _ => loop fuel ctx c b s
      else .done (some .null) s

/-- Runs a block. -/
def block : Nat → Context → Block → Store → Outcome Result
  | 0, _, _, _ => .outOfFuel
  | _ + 1, _, .missing, _ => .fault
  | fuel + 1, ctx, .mk _ ss, s => stmts fuel ctx ss none s

/-- Runs statements one after another, up to the first signal. The result is that of
    the last statement run, or `last` when there is none. -/
def stmts : Nat → Context → List Stmt → Result → Store → Outcome Result
  | 0, _, _, _, _ => .outOfFuel
  | _ + 1, _, [], last, s => .done last s
  | fuel + 1, ctx, st :: ss, _, s =>
    (stmt fuel ctx st s).bind fun r s =>
      if Result.isSignal r then .done r s else stmts fuel ctx ss r s

/-- Runs a statement. -/
def stmt : Nat → Context → Stmt → Store → Outcome Result
  | 0, _, _, _ => .outOfFuel
  | fuel + 1, ctx, st, s =>
    match st with
    | .missing => .done (some (.err .invalidNode)) s
    | .bind _ name e =>
      (expr fuel ctx e s).operand fun v s =>
        match name with
        | some x => .done none (s.set ctx.env.scope x.name v)
        | none => .fault
    | .ret _ .missing => .done (some (.ret .null)) s
    | .ret _ e => (expr fuel ctx e s).operand fun v s => .done (some (.ret v)) s
    | .brk _ => .done (some .brk) s
    | .expr _ e => expr fuel ctx e s
    | .block b => block fuel ctx b s

end

/-- Runs the statements of a program one after another. A return ends it with its
    value, an error ends it, and a break is an error. -/
def program : Nat → Context → List Stmt → Result → Store → Outcome Result
  | 0, _, _, _, _ => .outOfFuel
  | _ + 1, _, [], last, s => .done last s
  | fuel + 1, ctx, st :: ss, _, s =>
    (stmt fuel ctx st s).bind fun r s =>
      match r with
      | some (.ret v) => .done (some v) s
      | some (.err e) => .done (some (.err e)) s
      | some .brk => .done (some (.err .strayBreak)) s
      | r => program fuel ctx ss r s

/-- Nested deeper than any run that ends in practice. -/
def ample : Nat := Nat.pow 2 62

/-- How deeply calls may be nested unless something else is asked for. -/
def defaultLimit : Nat := 4096

/-- The limit that was asked for, if it is positive. -/
def limitOf (asked : Int) : Nat := if 0 < asked then asked.toNat else defaultLimit

end Eval

/-- Evaluates a tree in a context, under a bound on the nesting of evaluations. -/
def Node.evalWithin (fuel : Nat) (ctx : Context) (n : Node) (s : Store) : Outcome Result :=
  match n with
  | .program p => Eval.program fuel ctx p.stmts none s
  | .stmt st => Eval.stmt fuel ctx st s
  | .expr e => Eval.expr fuel ctx e s

/-- Evaluates a tree in an environment. -/
def Node.eval (limit : Nat) (env : Env) (n : Node) (s : Store) : Outcome Result :=
  n.evalWithin Eval.ample ⟨env, 0, limit⟩ s

/-- Evaluates a program in an environment. -/
def Program.eval (limit : Nat) (env : Env) (p : Program) (s : Store) : Outcome Result :=
  (Node.program p).eval limit env s

end Incognita
