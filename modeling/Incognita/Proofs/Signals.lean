import Incognita.Proofs.Plans
import Incognita.Proofs.Termination

namespace Incognita

/-!
# Eval — signals stay inside

Leaving a function and leaving a loop are signals, and as choices and loops are expressions, a
signal can turn up wherever a value is looked for.  It is never taken for one: what is bound, what
a function is called with and what it is left with are plain values.

* `Value.Tame` — a function is only left with a plain value;
* `Store.SignalFree` — no signal is bound in some scopes;
* `Realm.Quiet`, `Realm.HasPlain`, `Realm.HasTame` — the same for what evaluations can get at;
* `Eval.signals`, `Eval.signals_kept` — every evaluation keeps signals out of the store;
* `Eval.Event.Contained` — signals are not taken for values when something happens;
* `Program.signals_contained` — no signal gets out of a program, and none is bound by it.
-/

/-- If a function is being left, then with a plain value. -/
def Value.Tame (v : Value) : Prop := ∀ w, v = .ret w → w.isSignal = false

/-- The result is neither a return nor a break. -/
def Result.NoJump (r : Result) : Prop := ∀ v ∈ r, v.isSignal = false ∨ v.isError = true

theorem Result.noJump_none : Result.NoJump none := by simp [NoJump]

theorem Result.noJump_some {v : Value} (h : v.isSignal = false ∨ v.isError = true) :
    Result.NoJump (some v) := by
  rintro _ ⟨⟩
  exact h

/-- No signal is bound in the scopes. -/
def Store.SignalFree (scope : ScopeId → Prop) (s : Store) : Prop :=
  ∀ i x v, scope i → s.binding? i x = some v → v.isSignal = false

namespace Realm

variable (R : Realm)

/-- A value of the realm that is no signal. -/
structure HasPlain (v : Value) : Prop where
  value : R.HasValue v
  plain : v.isSignal = false

/-- A value of the realm that may be a signal. -/
structure HasTame (v : Value) : Prop where
  value : R.HasValue v
  tame : v.Tame

/-- A store of the realm in which no signal is bound. -/
structure Quiet (s : Store) : Prop where
  /-- What is bound is of the realm. -/
  store : R.HasStore s
  /-- And none of it is a signal. -/
  free : s.SignalFree R.scope

/-- A result of the realm in a quiet store. -/
abbrev Calm (r : Result) (t : Store) : Prop := R.Quiet t ∧ ∀ v ∈ r, R.HasTame v

variable {R} {s t : Store} {v : Value}

/-! ### Values -/

/-- A plain value leaves no function. -/
theorem HasPlain.tame (h : R.HasPlain v) : R.HasTame v := by
  refine ⟨h.value, ?_⟩
  rintro w rfl
  exact absurd h.plain (by simp [Value.isSignal])

theorem hasTame_err (e : RuntimeError) : R.HasTame (.err e) :=
  ⟨hasValue_of_data rfl, by simp [Value.Tame]⟩

theorem hasTame_brk : R.HasTame .brk := ⟨hasValue_of_data rfl, by simp [Value.Tame]⟩

theorem hasTame_none : ∀ v ∈ (none : Result), R.HasTame v := by simp

/-- What operators compute is data, or an error. -/
theorem hasTame_of_computed (h : v.Computed) : R.HasTame v := by
  refine ⟨hasValue_of_data h.closure?_eq, ?_⟩
  rintro w rfl
  cases h

theorem hasPlain_bool (b : Bool) : R.HasPlain (.bool b) := ⟨hasValue_of_data rfl, rfl⟩

theorem hasPlain_null : R.HasPlain .null := ⟨hasValue_of_data rfl, rfl⟩

/-- What stands for a missing result is `null`. -/
theorem hasTame_getD {r : Result} (h : ∀ v ∈ r, R.HasTame v) : R.HasTame (r.getD .null) := by
  cases r with
  | none => exact hasPlain_null.tame
  | some v => exact h v rfl

/-- A value that leaves a function is one that the function may be left with. -/
theorem hasPlain_of_ret {w : Value} (h : R.HasTame (.ret w)) : R.HasPlain w :=
  ⟨h.value, h.tame w rfl⟩

/-- What a call gives for what its body has ended with. -/
theorem hasTame_unwrap {r : Result} (h : ∀ v ∈ r, R.HasTame v) : R.HasTame (Eval.unwrap r) := by
  cases r with
  | none => exact hasPlain_null.tame
  | some v =>
    have hv : R.HasTame v := h v rfl
    cases v with
    | ret w => exact (hasPlain_of_ret hv).tame
    | brk => exact hasTame_err _
    | _ => exact hv

/-! ### Stores -/

/-- A result of the realm in a quiet store is calm. -/
theorem Calm.done (hs : R.Quiet s) (hv : R.HasTame v) : R.Calm (some v) s := by
  refine ⟨hs, ?_⟩
  rintro _ ⟨⟩
  exact hv

/-- In a quiet store names are bound to plain values. -/
theorem Quiet.get? (h : R.Quiet s) {is : List ScopeId} (hp : R.path is) {x : String}
    (hv : s.get? is x = some v) : R.HasPlain v := by
  obtain ⟨i, hi, hb⟩ := Store.binding?_of_get? hv
  have hscope : R.scope i := R.scope_of_mem hp hi
  exact ⟨h.store.bound hscope hb, h.free i x v hscope hb⟩

/-- A store stays quiet if a plain value is bound in it. -/
theorem Quiet.set (h : R.Quiet s) (i : ScopeId) (x : String) (hv : R.HasPlain v) :
    R.Quiet (s.set i x v) := by
  refine ⟨h.store.set i x hv.value, ?_⟩
  intro j y w hj hw
  rw [Store.binding?_set] at hw
  split at hw
  · rw [← Option.some.inj hw]
    exact hv.plain
  · exact h.free j y w hj hw

/-- A call binds its arguments in a new scope. -/
theorem Quiet.enter (h : R.Quiet s) (c : Closure) (names : List Ident) {vs : List Value}
    (hvs : ∀ v ∈ vs, R.HasPlain v) (n : Nat) :
    R.Quiet ((s.alloc c.scopes (bindParams names vs)).2.logCall c n) := by
  refine ⟨h.store.enter c names (fun v hv => (hvs v hv).value) n, ?_⟩
  intro j y w hj hw
  rw [Store.binding?_logCall, Store.binding?_alloc] at hw
  split at hw
  · exact (hvs w (lookup_bindParams hw)).plain
  · exact h.free j y w hj hw

end Realm

namespace Eval

/-! ### What evaluations promise -/

/-- The values that the evaluation starts from are plain, or what came before in a block. -/
def Job.StartsPlain (R : Realm) : Job → Prop
  | call f vs => R.HasPlain f ∧ ∀ v ∈ vs, R.HasPlain v
  | stmts _ last => ∀ v ∈ last, R.HasTame v
  | expr _ | logical _ | args _ | loop _ _ | block _ | stmt _ => True

/-- What the evaluation gives: arguments are plain, and a signal among them is on its own. -/
def Job.EndsTame (R : Realm) : (j : Job) → j.Result → Prop
  | args _, .ok vs => ∀ v ∈ vs, R.HasPlain v
  | args _, .error v => R.HasTame v
  | expr _, r | logical _, r | call _ _, r | loop _ _, r | block _, r | stmts _ _, r
  | stmt _, r => ∀ v ∈ r, R.HasTame v

/-- No evaluation takes a signal for a value, or binds one. -/
def signals (R : Realm) : Contract where
  pre v := v.job.StartsPlain R ∧ R.path v.ctx.env.path ∧ R.Quiet v.store
  post v r t := R.Quiet t ∧ v.job.EndsTame R r
  mayFault := True

section

variable {R : Realm} {ctx : Context} {s : Store}

/-- A plan that only gives a value keeps the contract. -/
theorem value_calm {v : Value} (hs : R.Quiet s) (hv : R.HasTame v) :
    (Plan.value v s).Meets (signals R) R.Calm :=
  Realm.Calm.done hs hv

/-- An operand that is a signal is the result, and any other one is plain. -/
theorem operand_calm {e : Expr} {k : Value → Store → Plan Result} (hp : R.path ctx.env.path)
    (hs : R.Quiet s)
    (hk : ∀ v t, R.HasPlain v → R.Quiet t → (k v t).Meets (signals R) R.Calm) :
    (Plan.operand ctx e s k).Meets (signals R) R.Calm := by
  refine ⟨⟨trivial, hp, hs⟩, fun r t hr => ?_⟩
  have hv : R.HasTame (r.getD .null) := Realm.hasTame_getD hr.2
  refine .ite (fun _ => value_calm hr.1 hv) fun hsignal => ?_
  exact hk _ t ⟨hv.value, by simpa using hsignal⟩ hr.1

/-- The plans of expressions keep the contract.  Operators, conditions and callees look at values
    that are no signals, because `Plan.operand` hands signals on. -/
theorem exprPlan_calm (hR : ∀ n, R.part n) (e : Expr) (hp : R.path ctx.env.path)
    (hs : R.Quiet s) : (exprPlan ctx s e).Meets (signals R) R.Calm := by
  cases e with
  | missing => exact value_calm hs (Realm.hasTame_err _)
  | bool | str => exact value_calm hs (Realm.HasPlain.tame ⟨Realm.hasValue_of_data rfl, rfl⟩)
  | ident x =>
    refine value_calm hs ?_
    cases hv : s.get? ctx.env.path x.name with
    | none => exact Realm.hasTame_err _
    | some v => exact (hs.get? hp hv).tame
  | int t v =>
    cases v with
    | none => exact value_calm hs (Realm.hasTame_err _)
    | some n => exact value_calm hs (Realm.HasPlain.tame ⟨Realm.hasValue_of_data rfl, rfl⟩)
  | unary t op e =>
    rw [exprPlan]
    refine operand_calm hp hs fun v t _ ht => ?_
    exact value_calm ht (Realm.hasTame_of_computed (Value.computed_unary op v))
  | binary t l op r =>
    rw [exprPlan]
    refine operand_calm hp hs fun v t _ ht => ?_
    -- The right operand is evaluated in one of three places, or not at all.
    have hlogical : (Plan.last ⟨.logical r, ctx, t⟩).Meets (signals R) R.Calm :=
      .last ⟨trivial, hp, ht⟩ fun _ _ h => h
    have hbool : ∀ b, (Plan.value (.bool b) t).Meets (signals R) R.Calm :=
      fun b => value_calm ht (Realm.hasPlain_bool b).tame
    refine .ite (fun _ => .ite (fun _ => hlogical) fun _ => hbool false) fun _ => ?_
    refine .ite (fun _ => .ite (fun _ => hbool true) fun _ => hlogical) fun _ => ?_
    refine operand_calm hp ht fun w u _ hu => ?_
    exact value_calm hu (Realm.hasTame_of_computed (Value.computed_binary op v w))
  | choice t c a b =>
    rw [exprPlan]
    refine operand_calm hp hs fun v t _ ht => ?_
    refine .ite (fun _ => .last ⟨trivial, hp, ht⟩ fun _ _ h => h) fun _ => ?_
    refine .ite (fun _ => value_calm ht Realm.hasPlain_null.tame) fun _ => ?_
    exact .last ⟨trivial, hp, ht⟩ fun _ _ h => h
  | loop t c b => exact .last ⟨trivial, hp, hs⟩ fun _ _ h => h
  | fn t ps b =>
    -- Making a closure binds nothing, and the closure is of the realm.
    have hclosure : R.HasPlain (.fn (s.newClosure t ps b ctx.env.path).1) := by
      refine ⟨?_, rfl⟩
      rintro c ⟨⟩
      exact ⟨Expr.every_of_forall hR _, hp⟩
    exact value_calm ⟨⟨hs.store.start, hs.store.bound⟩, hs.free⟩ hclosure.tame
  | call t f as =>
    rw [exprPlan]
    refine operand_calm hp hs fun v t hv ht => ⟨⟨trivial, hp, ht⟩, fun vs u hvs => ?_⟩
    cases vs with
    | ok vs => exact .last ⟨⟨hv, hvs.2⟩, hp, hvs.1⟩ fun _ _ h => h
    | error signal => exact value_calm hvs.1 hvs.2

/-- Only plain arguments are collected. -/
theorem argsPlan_calm (es : List Expr) (hp : R.path ctx.env.path) (hs : R.Quiet s) :
    (argsPlan ctx s es).Meets (signals R) fun r t => R.Quiet t ∧ (Job.args es).EndsTame R r := by
  cases es with
  | nil => exact ⟨hs, by simp [Job.EndsTame]⟩
  | cons e es =>
    refine ⟨⟨trivial, hp, hs⟩, fun r t hr => ?_⟩
    have hv : R.HasTame (r.getD .null) := Realm.hasTame_getD hr.2
    refine .ite (fun _ => ⟨hr.1, hv⟩) fun hsignal => ?_
    have hplain : R.HasPlain (r.getD .null) := ⟨hv.value, by simpa using hsignal⟩
    refine ⟨⟨trivial, hp, hr.1⟩, fun vs u hvs => ?_⟩
    cases vs with
    | ok vs => exact ⟨hvs.1, List.forall_mem_cons.2 ⟨hplain, hvs.2⟩⟩
    | error signal => exact hvs

/-- The plan of a call keeps the contract, and unwraps what the body returns. -/
theorem callPlan_calm (f : Value) (vs : List Value) (hf : R.HasPlain f)
    (hvs : ∀ v ∈ vs, R.HasPlain v) (hs : R.Quiet s) :
    (callPlan ctx s vs f).Meets (signals R) R.Calm := by
  cases f with
  | fn c =>
    refine .ite (fun _ => value_calm hs (Realm.hasTame_err _)) fun _ => ?_
    refine .ite (fun _ => value_calm hs (Realm.hasTame_err _)) fun _ => ?_
    cases Ident.present? c.params with
    | none => trivial
    | some names =>
      -- The body runs in a new scope that binds the arguments, in front of those of the function.
      have hpath : R.path (s.scopes.size :: c.scopes) :=
        R.path_cons hs.store.start (hf.value c rfl).2
      refine ⟨⟨trivial, hpath, hs.enter c names hvs (ctx.depth + 1)⟩, fun r t hr => ?_⟩
      exact value_calm hr.1 (Realm.hasTame_unwrap hr.2)
  | _ => exact value_calm hs (Realm.hasTame_err _)

/-- The plan of a loop keeps the contract. -/
theorem loopPlan_calm (c : Expr) (b : Block) (hp : R.path ctx.env.path) (hs : R.Quiet s) :
    (loopPlan ctx s c b).Meets (signals R) R.Calm := by
  refine operand_calm hp hs fun v t _ ht => ?_
  refine .ite (fun _ => ?_) fun _ => value_calm ht Realm.hasPlain_null.tame
  refine ⟨⟨trivial, hp, ht⟩, fun r u hr => ?_⟩
  have hnext : (Plan.last ⟨.loop c b, ctx, u⟩).Meets (signals R) R.Calm :=
    .last ⟨trivial, hp, hr.1⟩ fun _ _ h => h
  -- A break ends here, a return and an error go on, and anything else leads to the next round.
  cases r with
  | none => exact hnext
  | some v =>
    cases v with
    | brk => exact value_calm hr.1 Realm.hasPlain_null.tame
    | ret w => exact value_calm hr.1 (hr.2 _ rfl)
    | err e => exact value_calm hr.1 (hr.2 _ rfl)
    | _ => exact hnext

/-- The plan of statements one after the other keeps the contract. -/
theorem stmtsPlan_calm (ss : List Stmt) (last : Result) (hlast : ∀ v ∈ last, R.HasTame v)
    (hp : R.path ctx.env.path) (hs : R.Quiet s) :
    (stmtsPlan ctx s last ss).Meets (signals R) R.Calm := by
  cases ss with
  | nil => exact ⟨hs, hlast⟩
  | cons st ss =>
    refine ⟨⟨trivial, hp, hs⟩, fun r t hr => ?_⟩
    refine .ite (fun _ => hr) fun _ => ?_
    exact .last ⟨hr.2, hp, hr.1⟩ fun _ _ h => h

/-- The plan of a statement keeps the contract.  What is bound is an operand, so it is plain. -/
theorem stmtPlan_calm (st : Stmt) (hp : R.path ctx.env.path) (hs : R.Quiet s) :
    (stmtPlan ctx s st).Meets (signals R) R.Calm := by
  cases st with
  | missing => exact value_calm hs (Realm.hasTame_err _)
  | brk t => exact value_calm hs Realm.hasTame_brk
  | bind t x e =>
    rw [stmtPlan]
    refine operand_calm hp hs fun v t hv ht => ?_
    cases x with
    | none => trivial
    | some x => exact ⟨ht.set ctx.env.scope x.name hv, Realm.hasTame_none⟩
  | ret t e =>
    -- A return wraps a plain value, whether it is written or is the `null` of a bare one.
    have hret : ∀ v u, R.HasPlain v → R.Quiet u →
        (Plan.value (.ret v) u).Meets (signals R) R.Calm := by
      intro v u hv hu
      refine value_calm hu ⟨hv.value, ?_⟩
      rintro w ⟨⟩
      exact hv.plain
    exact .ite (fun _ => hret .null s Realm.hasPlain_null hs) fun _ => operand_calm hp hs hret
  | expr t e => exact .last ⟨trivial, hp, hs⟩ fun _ _ h => h
  | block b => exact .last ⟨trivial, hp, hs⟩ fun _ _ h => h

/-- **Every evaluation keeps signals out of the store**, and takes none for a value. -/
theorem signals_kept (hR : ∀ n, R.part n) : (signals R).Kept := by
  rintro ⟨j, ctx, s⟩ ⟨hj, hp, hs⟩
  cases j with
  | expr e => exact exprPlan_calm hR e hp hs
  | logical e =>
    show (Plan.operand ctx e s fun v t => .value (.bool v.truthy) t).Meets (signals R) R.Calm
    refine operand_calm hp hs fun v t _ ht => ?_
    exact value_calm ht (Realm.hasPlain_bool _).tame
  | args es => exact argsPlan_calm es hp hs
  | call f vs => exact callPlan_calm f vs hj.1 hj.2 hs
  | loop c b => exact loopPlan_calm c b hp hs
  -- The body is a list of statements, which starts without a result.
  | block b =>
    cases b with
    | missing => trivial
    | mk t ss => exact .last ⟨Realm.hasTame_none, hp, hs⟩ fun _ _ h => h
  | stmts ss last => exact stmtsPlan_calm ss last hj hp hs
  | stmt st => exact stmtPlan_calm st hp hs

end

/-! ### Programs -/

/-- Signals are not taken for values when the event happens: a function is called with plain
    values, what it is left with is plain, and no signal is bound in the scopes. -/
def Event.Contained (scope : ScopeId → Prop) : Event → Prop
  | began v =>
    v.store.SignalFree scope ∧ ∀ f vs, v.job = .call f vs → ∀ a ∈ vs, a.isSignal = false
  | ended v r t => t.SignalFree scope ∧ ∀ a ∈ v.job.values r, a.Tame

/-- An event that meets the contract takes no signal for a value. -/
theorem Event.Meets.contained {R : Realm} {ev : Event} (h : ev.Meets (signals R)) :
    ev.Contained R.scope := by
  cases ev with
  | began v =>
    refine ⟨h.2.2.free, fun f vs hj a ha => ?_⟩
    have hstart : v.job.StartsPlain R := h.1
    rw [hj] at hstart
    exact (hstart.2 a ha).plain
  | ended v r t =>
    refine ⟨h.1.free, ?_⟩
    have hends : v.job.EndsTame R r := h.2
    -- Only arguments give several values, or a signal in their place.
    obtain ⟨j, ctx, s⟩ := v
    cases j with
    | args es =>
      cases r with
      | ok vs => exact fun a ha => (hends a ha).tame.tame
      | error signal => exact fun a ha => List.mem_singleton.1 ha ▸ hends.tame
    | _ => exact fun a ha => (hends a (Option.mem_toList.1 ha)).tame

/-- The statements of a program, which signals end: a return with its value, and a break as an
    error. -/
theorem program_contained {R : Realm} (hR : ∀ n, R.part n) (fuel : Nat) {ctx : Context}
    {ss : List Stmt} {last : Result} {s : Store} (hlast : last.NoJump)
    (hp : R.path ctx.env.path) (hs : R.Quiet s) :
    (∀ ev ∈ programTrace ctx fuel ss s, ev.Contained R.scope) ∧
      (program fuel ctx ss last s).Sat True fun r t => R.Quiet t ∧ r.NoJump := by
  induction fuel generalizing ss last s with
  | zero => exact ⟨by simp [programTrace], trivial⟩
  | succ fuel ih =>
    cases ss with
    | nil => exact ⟨by simp [programTrace], hs, hlast⟩
    | cons st ss =>
      have hpre : (signals R).pre ⟨.stmt st, ctx, s⟩ := ⟨trivial, hp, hs⟩
      obtain ⟨htrace, hrun⟩ := Visit.meets (signals_kept hR) fuel _ hpre
      rw [programTrace, program]
      refine hrun.bind_after (fun ev hev => (htrace ev hev).contained) fun r t hr => ?_
      -- After a statement that ends the program no event follows.
      have hnothing : ∀ ev ∈ ([] : List Event), ev.Contained R.scope := by simp
      cases r with
      | none => exact ih Result.noJump_none hr.1
      | some v =>
        have hv : R.HasTame v := hr.2 v rfl
        cases v with
        | ret w => exact ⟨hnothing, hr.1, Result.noJump_some (.inl (hv.tame w rfl))⟩
        | err e => exact ⟨hnothing, hr.1, Result.noJump_some (.inr rfl)⟩
        | brk => exact ⟨hnothing, hr.1, Result.noJump_some (.inr rfl)⟩
        | _ => exact ih (Result.noJump_some (.inl rfl)) hr.1

end Eval

/-- **Signals stay inside.**  Whatever the program, and whatever the faults of the source that it
    was read from: if no signal is bound in the scopes that can be reached from its environment,
    then while it runs no function is called with a signal or left with one, and no signal is bound
    there or in a new scope.  It ends with no value, with a plain one or with an error. -/
theorem Program.signals_contained (p : Program) (fuel : Nat) (ctx : Context) {s : Store}
    (hs : s.SignalFree (s.InSight ctx.env)) :
    (∀ ev ∈ (Node.program p).trace fuel ctx s, ev.Contained (s.InSight ctx.env)) ∧
      ∀ r t, (Node.program p).evalWithin fuel ctx s = .done r t →
        r.NoJump ∧ t.SignalFree (s.InSight ctx.env) ∧ t.SignalFree (t.InSight ctx.env) := by
  let R : Realm := .inSight s ctx.env (fun _ => True) True (.inl trivial)
  have hpath : R.path ctx.env.path := Realm.inSight_path
  have hstore : R.HasStore s :=
    Realm.inSight_hasStore fun c _ => Expr.every_of_forall (fun _ => trivial) _
  have hprogram : (∀ ev ∈ Eval.programTrace ctx fuel p.stmts s, ev.Contained R.scope) ∧
      (Eval.program fuel ctx p.stmts none s).Sat True fun r t => R.Quiet t ∧ r.NoJump :=
    Eval.program_contained (fun _ => trivial) fuel Result.noJump_none hpath ⟨hstore, hs⟩
  refine ⟨hprogram.1, fun r t heval => ?_⟩
  have hdone : Eval.program fuel ctx p.stmts none s = .done r t := heval
  have hrun := hprogram.2
  rw [hdone] at hrun
  refine ⟨hrun.2, hrun.1.free, fun i x v hi => hrun.1.free i x v ?_⟩
  exact hrun.1.store.inSight_of_inSight hi

/-- `incognita f = operacion(a) { a }; f(x) + f(si (x) { devuelve x })`, with a return in an
    argument. -/
def Program.returnsInArgument : Program :=
  let name (x : String) : Ident := .ofToken ⟨.ident, x⟩
  let block (st : Stmt) : Block := .mk ⟨.lbrace, "\x7b"⟩ [st]
  let callF (e : Expr) : Expr := .call ⟨.lparen, "("⟩ (.ident (name "f")) [e]
  let identity : Expr :=
    .fn ⟨.kwFunction, "operacion"⟩ [some (name "a")]
      (block (.expr ⟨.ident, "a"⟩ (.ident (name "a"))))
  let leaves : Expr := .choice ⟨.kwIf, "si"⟩ (.ident (name "x"))
    (block (.ret ⟨.kwReturn, "devuelve"⟩ (.ident (name "x")))) .missing
  ⟨[.bind ⟨.kwLet, "incognita"⟩ (some (name "f")) identity,
    .expr ⟨.ident, "f"⟩ (.binary ⟨.plus, "+"⟩ (callF (.ident (name "x"))) "+" (callF leaves))]⟩

/-- A store with a signal, in a scope that cannot be reached from the first one. -/
def Store.besideBreak : Store := ⟨#[[("x", .int 5)], [("y", .brk)]], [], 0⟩

/-- From the first scope of `besideBreak` its signal is not in sight. -/
theorem Store.signalFree_besideBreak :
    Store.besideBreak.SignalFree (Store.besideBreak.InSight .root) := by
  have hfirst : ∀ x v, Store.besideBreak.binding? 0 x = some v → v = .int 5 := by
    intro x v hv
    simp only [binding?, besideBreak, Array.getD_eq_getD_getElem?, List.getElem?_toArray,
      List.getElem?_cons_zero, Option.getD_some, List.lookup_cons] at hv
    split at hv
    · exact (Option.some.inj hv).symm
    · exact absurd hv (by simp)
  -- Neither scope binds a function, so nothing can be reached through one.
  have hnone : ∀ c, ¬ Store.besideBreak.ReachesFrom .root c := by
    intro c hc
    refine hc.of_bound (P := fun _ => False) fun b hb e he d hd => ?_
    simp only [besideBreak, List.mem_cons, List.not_mem_nil, or_false] at hb
    rcases hb with rfl | rfl
    · rw [List.mem_singleton.1 he] at hd
      exact absurd hd (by simp [Value.closure?])
    · rw [List.mem_singleton.1 he] at hd
      exact absurd hd (by simp [Value.closure?])
  intro i x v hi hv
  rcases hi with hi | ⟨c, hc, -⟩ | hi
  · rw [List.mem_singleton.1 hi] at hv
    rw [hfirst x v hv]
    rfl
  · exact absurd hc (hnone c)
  · rw [binding?_of_size_le hi] at hv
    exact absurd hv (by simp)

/-- The return in the argument ends the program, with the value that was returned. -/
theorem Program.returnsInArgument_contained :
    let n := Node.program .returnsInArgument
    let inSight := Store.besideBreak.InSight .root
    Store.besideBreak.SignalFree inSight ∧
      (∀ ev ∈ n.trace 20 ⟨.root, 0, 10⟩ .besideBreak, ev.Contained inSight) ∧
      ∃ t, n.evalWithin 20 ⟨.root, 0, 10⟩ .besideBreak = .done (some (.int 5)) t ∧
        Result.NoJump (some (.int 5)) ∧ t.SignalFree inSight ∧ t.SignalFree (t.InSight .root) := by
  intro n inSight
  have hfree : Store.besideBreak.SignalFree inSight := Store.signalFree_besideBreak
  have hcontained := signals_contained .returnsInArgument 20 ⟨.root, 0, 10⟩ hfree
  exact ⟨hfree, hcontained.1, _, rfl, hcontained.2 _ _ rfl⟩

end Incognita
