import Incognita.Proofs.Evaluations
import Incognita.Proofs.Parts
import Incognita.Proofs.Reachable

namespace Incognita

/-!
# Eval — what evaluations can get at

An evaluation gets at closures through its environment, and makes closures of the function
literals in its tree.  What all of these are like, the closures that it leaves behind are like as
well, whatever it calls.

* `Realm` — what the functions, their scopes and their paths are like;
* `Realm.HasValue`, `Realm.HasStore`, `Realm.HasBlock` — values, stores and blocks of a realm;
* `Eval.Job.run_within` — evaluations stay within a realm;
* `Node.evalWithin_within` — the same for whole trees.
-/

/-- What the closures are like that evaluations can get at.  Only the bindings of some scopes
    matter, which those of every path are among. -/
structure Realm where
  /-- Every part of the functions satisfies this. -/
  part : Node → Prop
  /-- The scopes whose bindings matter. -/
  scope : ScopeId → Prop
  /-- The scopes that a function may be made in, innermost first. -/
  path : List ScopeId → Prop
  /-- New scopes have at least this number. -/
  start : Nat
  /-- Whether something may be missing without which an evaluation cannot go on. -/
  mayFault : Prop
  /-- The scopes of a path matter, since names are looked up there. -/
  scope_of_mem : ∀ {is i}, path is → i ∈ is → scope i
  /-- The scope of a call may be put in front of a path. -/
  path_cons : ∀ {is i}, start ≤ i → path is → path (i :: is)
  /-- Unless faults are admitted the functions lack no part that is taken for granted. -/
  whole : mayFault ∨ ∀ n, part n → n.Whole

namespace Realm

variable (R : Realm)

/-- The closure that the value holds, if any, is one of the realm. -/
def HasValue (v : Value) : Prop := ∀ c, v.closure? = some c → c.Every R.part ∧ R.path c.scopes

/-- Whatever is bound in the scopes that matter is of the realm. -/
structure HasStore (s : Store) : Prop where
  /-- No scope that was there when the evaluation began has gone. -/
  start : R.start ≤ s.scopes.size
  /-- What is bound in the scopes that matter is of the realm. -/
  bound : ∀ {i x v}, R.scope i → s.binding? i x = some v → R.HasValue v

/-- The parts of the block are as the realm asks, and the block is there if it has to be. -/
def HasBlock (b : Block) : Prop := b.Every R.part ∧ (R.mayFault ∨ b ≠ .missing)

/-- A result of the realm in a store of the realm. -/
abbrev Good (r : Result) (t : Store) : Prop := R.HasStore t ∧ ∀ v ∈ r.toList, R.HasValue v

variable {R} {s : Store} {v : Value} {vs : List Value} {is : List ScopeId}

/-! ### Values and stores -/

/-- Data, as opposed to a function, is of every realm: it holds no closure. -/
theorem hasValue_of_data (h : v.closure? = none) : R.HasValue v :=
  fun c hc => absurd (h.symm.trans hc) (by simp)

/-- What stands for a missing result is `null`, which is data. -/
theorem hasValue_getD {r : Result} (h : ∀ v ∈ r.toList, R.HasValue v) :
    R.HasValue (r.getD .null) := by
  cases r with
  | none => exact hasValue_of_data rfl
  | some v => exact h v (by simp)

/-- Unwrapping a `ret` does not leave the realm, since `closure?` looks through it. -/
theorem hasValue_unwrap {r : Result} (h : ∀ v ∈ r.toList, R.HasValue v) :
    R.HasValue (Eval.unwrap r) := by
  cases r with
  | none => exact hasValue_of_data rfl
  | some v =>
    have hv : R.HasValue v := h v (by simp)
    cases v with
    | ret w => exact hv
    | brk => exact hasValue_of_data rfl
    | _ => exact hv

/-- A name is looked up along the path of the environment, and the scopes of a path are among those
    that matter. -/
theorem HasStore.get? (h : R.HasStore s) (hp : R.path is) {x : String}
    (hv : s.get? is x = some v) : R.HasValue v := by
  obtain ⟨i, hi, hb⟩ := Store.binding?_of_get? hv
  exact h.bound (R.scope_of_mem hp hi) hb

/-- Binding a value of the realm keeps the store in it, whichever scope takes the binding: at most
    one binding is new. -/
theorem HasStore.set (h : R.HasStore s) (i : ScopeId) (x : String) (hv : R.HasValue v) :
    R.HasStore (s.set i x v) where
  start := by
    rw [Store.size_set]
    exact h.start
  bound := by
    intro j y w hj hw
    rw [Store.binding?_set] at hw
    split at hw
    · rwa [← Option.some.inj hw]
    · exact h.bound hj hw

/-- A call binds its arguments in a new scope. -/
theorem HasStore.enter (h : R.HasStore s) (c : Closure) (names : List Ident)
    (hvs : ∀ v ∈ vs, R.HasValue v) (n : Nat) :
    R.HasStore ((s.alloc c.scopes (bindParams names vs)).2.logCall c n) where
  start := by
    show R.start ≤ (s.alloc c.scopes (bindParams names vs)).2.scopes.size
    rw [Store.size_alloc]
    exact Nat.le_succ_of_le h.start
  bound := by
    intro j y w hj hw
    rw [Store.binding?_logCall, Store.binding?_alloc] at hw
    split at hw
    · exact hvs w (lookup_bindParams hw)
    · exact h.bound hj hw

/-! ### Blocks -/

section

variable {t : Token} {c : Expr} {a b : Block}

/-- A block that a whole part of a tree has to have. -/
theorem hasBlock_of_part {n : Node} (hb : b.Every R.part) (hn : R.part n)
    (hw : n.Whole → b ≠ .missing) : R.HasBlock b :=
  ⟨hb, R.whole.imp id fun h => hw (h n hn)⟩

/-- The consequence of a choice has to be there, by `Node.Whole`. -/
theorem hasBlock_consequence (h : (Expr.choice t c a b).Every R.part) : R.HasBlock a :=
  hasBlock_of_part h.2.2.1 h.1 id

/-- An alternative may be missing, but is as the realm asks if it is there. -/
theorem hasBlock_alternative (h : (Expr.choice t c a b).Every R.part)
    (hm : ¬ b.isMissing = true) : R.HasBlock b := by
  refine ⟨h.2.2.2, .inr ?_⟩
  rintro rfl
  exact hm rfl

/-- The body of a loop has to be there, like a consequence. -/
theorem hasBlock_loop (h : (Expr.loop t c b).Every R.part) : R.HasBlock b :=
  hasBlock_of_part h.2.2 h.1 id

/-- The body of a closure has to be there, which its parts being of the realm says. -/
theorem hasBlock_body {f : Closure} (h : f.Every R.part) : R.HasBlock f.body :=
  hasBlock_of_part h.2 h.1 And.right

/-- A function lacks a parameter only where something may be missing. -/
theorem mayFault_of_missing {f : Closure} (h : f.Every R.part)
    (hnone : Ident.present? f.params = none) : R.mayFault :=
  R.whole.resolve_right fun hw => (hw _ h.1).1 (Ident.present?_eq_none_iff.1 hnone)

/-- A block that stands by itself as a statement has to be there. -/
theorem hasBlock_stmt (h : (Stmt.block b).Every R.part) : R.HasBlock b :=
  hasBlock_of_part h.2 h.1 id

end

end Realm

namespace Eval

/-! ### Evaluations -/

namespace Job

/-- The tree of the evaluation and the values that it starts from are of the realm. -/
def In (R : Realm) : Job → Prop
  | expr e | logical e => e.Every R.part
  | args es => Expr.EveryAll R.part es
  | call f vs => R.HasValue f ∧ ∀ v ∈ vs, R.HasValue v
  | loop c b => c.Every R.part ∧ R.HasBlock b
  | block b => R.HasBlock b
  | stmts ss last => Stmt.EveryAll R.part ss ∧ ∀ v ∈ last.toList, R.HasValue v
  | stmt st => st.Every R.part

/-- Every evaluation in a realm stays within it. -/
def AllWithin (R : Realm) (fuel : Nat) : Prop :=
  ∀ (j : Job) (ctx : Context) (s : Store), j.In R → R.path ctx.env.path → R.HasStore s →
    (j.run fuel ctx s).Sat R.mayFault fun r t => R.HasStore t ∧ ∀ v ∈ j.values r, R.HasValue v

variable {R : Realm} {fuel : Nat} {ctx : Context} {s : Store}

/-- An evaluation that is done with a value of the realm is good. -/
theorem done_within {v : Value} (hv : R.HasValue v) (hs : R.HasStore s) :
    (Outcome.done (some v) s).Sat R.mayFault R.Good :=
  ⟨hs, by simpa using hv⟩

/-- A result that holds no closure. -/
theorem data_within {v : Value} (hv : v.closure? = none) (hs : R.HasStore s) :
    (Outcome.done (some v) s).Sat R.mayFault R.Good :=
  done_within (Realm.hasValue_of_data hv) hs

/-- The rule for `Outcome.operand`: the rest of the evaluation only has to be good for operands of
    the realm, because signals that are handed on are of the realm already. -/
theorem operand_within {o : Outcome Incognita.Result}
    {k : Value → Store → Outcome Incognita.Result} (h : o.Sat R.mayFault R.Good)
    (hk : ∀ v t, R.HasValue v → R.HasStore t → (k v t).Sat R.mayFault R.Good) :
    (o.operand k).Sat R.mayFault R.Good := by
  refine h.operand ?_ ?_
  · intro r t hr _
    exact ⟨hr.1, by simpa using Realm.hasValue_getD hr.2⟩
  · intro r t hr _
    exact hk _ t (Realm.hasValue_getD hr.2) hr.1

/-- The step for expressions.  The environment is looked up in, and made part of a closure, only
    here. -/
theorem expr_within (ih : AllWithin R fuel) (e : Expr) (he : e.Every R.part)
    (hp : R.path ctx.env.path) (hs : R.HasStore s) :
    (Eval.expr (fuel + 1) ctx e s).Sat R.mayFault R.Good := by
  cases e with
  | missing | bool | str => simp only [Eval.expr]; exact data_within rfl hs
  | ident x =>
    rw [expr_ident]
    refine done_within ?_ hs
    cases hv : s.get? ctx.env.path x.name with
    | none => exact Realm.hasValue_of_data rfl
    | some v => exact hs.get? hp hv
  | int t v => cases v <;> simp only [Eval.expr] <;> exact data_within rfl hs
  | unary t op e =>
    simp only [Eval.expr]
    refine operand_within (ih (.expr e) ctx s he.2 hp hs) fun v t _ ht => ?_
    exact data_within (Value.computed_unary op v).closure?_eq ht
  | binary t l op r =>
    obtain ⟨-, hl, hr⟩ := he
    simp only [Eval.expr]
    refine operand_within (ih (.expr l) ctx s hl hp hs) fun v t _ ht => ?_
    have hlogical := ih (.logical r) ctx t hr hp ht
    split
    · split
      · exact hlogical
      · exact data_within rfl ht
    · split
      · split
        · exact data_within rfl ht
        · exact hlogical
      · refine operand_within (ih (.expr r) ctx t hr hp ht) fun w t _ ht => ?_
        exact data_within (Value.computed_binary op v w).closure?_eq ht
  | choice t c a b =>
    rw [expr_choice]
    refine operand_within (ih (.expr c) ctx s he.2.1 hp hs) fun v t _ ht => ?_
    split
    · exact ih (.block a) ctx t (Realm.hasBlock_consequence he) hp ht
    · split
      · exact data_within rfl ht
      · next hm => exact ih (.block b) ctx t (Realm.hasBlock_alternative he hm) hp ht
  | loop t c b =>
    simp only [Eval.expr]
    exact ih (.loop c b) ctx s ⟨he.2.1, Realm.hasBlock_loop he⟩ hp hs
  | fn t ps b =>
    simp only [Eval.expr]
    refine done_within ?_ ⟨hs.start, hs.bound⟩
    -- The closure is one of a function literal of the tree, in the scopes of the environment.
    rintro c ⟨⟩
    exact ⟨he, hp⟩
  | call t f as =>
    obtain ⟨-, hf, has⟩ := he
    simp only [Eval.expr]
    refine operand_within (ih (.expr f) ctx s hf hp hs) fun v t hv ht => ?_
    refine (ih (.args as) ctx t has hp ht).bind fun vs t hvs => ?_
    cases vs with
    | ok vs => exact ih (.call v vs) ctx t ⟨hv, hvs.2⟩ hp hvs.1
    | error signal => exact hvs

/-- The step for arguments, whose values are collected with those of the others. -/
theorem args_within (ih : AllWithin R fuel) (es : List Expr) (hes : Expr.EveryAll R.part es)
    (hp : R.path ctx.env.path) (hs : R.HasStore s) :
    (Eval.args (fuel + 1) ctx es s).Sat R.mayFault fun r t =>
      R.HasStore t ∧ ∀ v ∈ (args es).values r, R.HasValue v := by
  -- The first argument may fail, and then its result stands for all of them.
  cases es with
  | nil => simp only [Eval.args]; exact ⟨hs, by simp [values]⟩
  | cons e es =>
    simp only [Eval.args]
    refine (ih (.expr e) ctx s hes.1 hp hs).bind fun r t hr => ?_
    have hv := Realm.hasValue_getD hr.2
    split
    · exact ⟨hr.1, by simpa [values] using hv⟩
    · refine (ih (.args es) ctx t hes.2 hp hr.1).bind fun vs t hvs => ?_
      cases vs with
      | ok vs => exact ⟨hvs.1, List.forall_mem_cons.2 ⟨hv, hvs.2⟩⟩
      | error signal => exact hvs

/-- The step for calls.  The body is evaluated in a scope that is made for the call, on the path of
    the closure and not on that of the caller. -/
theorem call_within (ih : AllWithin R fuel) (f : Value) (vs : List Value) (hf : R.HasValue f)
    (hvs : ∀ v ∈ vs, R.HasValue v) (hs : R.HasStore s) :
    (Eval.call (fuel + 1) ctx f vs s).Sat R.mayFault R.Good := by
  cases f with
  | fn c =>
    obtain ⟨hparts, hpath⟩ := hf c rfl
    simp only [Eval.call]
    split
    · exact data_within rfl hs
    · split
      · exact data_within rfl hs
      cases hnames : Ident.present? c.params with
      | none => exact Realm.mayFault_of_missing hparts hnames
      | some names =>
        -- The scope of the call is a new one in front of those of the closure.
        have hnew : R.path (s.scopes.size :: c.scopes) := R.path_cons hs.start hpath
        have hstore := hs.enter c names hvs (ctx.depth + 1)
        refine (ih (.block c.body) ⟨⟨s.scopes.size, c.scopes⟩, ctx.depth + 1, ctx.limit⟩ _
          (Realm.hasBlock_body hparts) hnew hstore).bind fun r t hr => ?_
        exact done_within (Realm.hasValue_unwrap hr.2) hr.1
  | _ => simp only [Eval.call]; exact data_within rfl hs

/-- The step for loops, with `Job.loop` itself for the turns that are left. -/
theorem loop_within (ih : AllWithin R fuel) (c : Expr) (b : Block) (h : (loop c b).In R)
    (hp : R.path ctx.env.path) (hs : R.HasStore s) :
    (Eval.loop (fuel + 1) ctx c b s).Sat R.mayFault R.Good := by
  simp only [Eval.loop]
  refine operand_within (ih (.expr c) ctx s h.1 hp hs) fun v t _ ht => ?_
  split
  · refine (ih (.block b) ctx t h.2 hp ht).bind fun r t hr => ?_
    split
    · exact data_within rfl hr.1
    · exact hr
    · exact hr
    · exact ih (.loop c b) ctx t h hp hr.1
  · exact data_within rfl ht

/-- The step for blocks. -/
theorem block_within (ih : AllWithin R fuel) (b : Block) (h : R.HasBlock b)
    (hp : R.path ctx.env.path) (hs : R.HasStore s) :
    (Eval.block (fuel + 1) ctx b s).Sat R.mayFault R.Good := by
  cases b with
  | missing =>
    simp only [Eval.block]
    exact h.2.resolve_right fun hm => hm rfl
  | mk t ss =>
    simp only [Eval.block]
    exact ih (.stmts ss none) ctx s ⟨h.1, by simp⟩ hp hs

/-- The step for statements one after the other. -/
theorem stmts_within (ih : AllWithin R fuel) (ss : List Stmt) (last : Incognita.Result)
    (h : (stmts ss last).In R) (hp : R.path ctx.env.path) (hs : R.HasStore s) :
    (Eval.stmts (fuel + 1) ctx ss last s).Sat R.mayFault R.Good := by
  cases ss with
  | nil => simp only [Eval.stmts]; exact ⟨hs, h.2⟩
  | cons st ss =>
    obtain ⟨⟨hst, hss⟩, -⟩ := h
    simp only [Eval.stmts]
    refine (ih (.stmt st) ctx s hst hp hs).bind fun r t hr => ?_
    split
    · exact hr
    · exact ih (.stmts ss r) ctx t ⟨hss, hr.2⟩ hp hr.1

/-- The step for a statement, where only `bind` changes the store by itself. -/
theorem stmt_within (ih : AllWithin R fuel) (st : Stmt) (h : st.Every R.part)
    (hp : R.path ctx.env.path) (hs : R.HasStore s) :
    (Eval.stmt (fuel + 1) ctx st s).Sat R.mayFault R.Good := by
  cases st with
  | missing | brk => simp only [Eval.stmt]; exact data_within rfl hs
  -- A binding without a name is a fault, which the realm has to allow.
  | bind tok x e =>
    simp only [Eval.stmt]
    refine operand_within (ih (.expr e) ctx s h.2 hp hs) fun v t hv ht => ?_
    cases x with
    | none => exact R.whole.resolve_right fun hw => hw _ h.1 rfl
    | some x => exact ⟨ht.set ctx.env.scope x.name hv, by simp⟩
  | ret tok e =>
    by_cases he : e = .missing
    · simp only [he, Eval.stmt]
      exact data_within rfl hs
    · rw [stmt_ret he]
      refine operand_within (ih (.expr e) ctx s h.2 hp hs) fun v t hv ht => ?_
      exact done_within hv ht
  | expr tok e => simp only [Eval.stmt]; exact ih (.expr e) ctx s h.2 hp hs
  | block b =>
    simp only [Eval.stmt]
    exact ih (.block b) ctx s (Realm.hasBlock_stmt h) hp hs

/-- **Evaluations stay within a realm**, and meet no missing part unless the realm lets them.  By
    induction on the bound, with one step for each kind of evaluation.  The realm is fixed, so a
    call that a callee makes is covered as well. -/
theorem run_within (R : Realm) (fuel : Nat) : AllWithin R fuel := by
  induction fuel with
  | zero =>
    intro j ctx s _ _ _
    rw [run_zero]
    trivial
  | succ fuel ih =>
    intro j ctx s h hp hs
    cases j with
    | expr e => exact expr_within ih e h hp hs
    | logical e =>
      simp only [run, Eval.logical]
      exact operand_within (ih (.expr e) ctx s h hp hs) fun v t _ ht => data_within rfl ht
    | args es => exact args_within ih es h hp hs
    | call f vs => exact call_within ih f vs h.1 h.2 hs
    | loop c b => exact loop_within ih c b h hp hs
    | block b => exact block_within ih b h hp hs
    | stmts ss last => exact stmts_within ih ss last h hp hs
    | stmt st => exact stmt_within ih st h hp hs

end Job

/-- Programs are no jobs, so they have an induction of their own over the statements. -/
theorem program_within {R : Realm} (fuel : Nat) {ctx : Context} {ss : List Stmt} {last : Result}
    {s : Store} (hss : Stmt.EveryAll R.part ss) (hlast : ∀ v ∈ last.toList, R.HasValue v)
    (hp : R.path ctx.env.path) (hs : R.HasStore s) :
    (program fuel ctx ss last s).Sat R.mayFault R.Good := by
  -- Every statement takes one of the fuel, so the store and the last result vary.
  induction fuel generalizing ss last s with
  | zero => simp only [program]; trivial
  | succ fuel ih =>
    cases ss with
    | nil => simp only [program]; exact ⟨hs, hlast⟩
    | cons st ss =>
      simp only [program]
      refine (Job.run_within R fuel (.stmt st) ctx s hss.1 hp hs).bind fun r t hr => ?_
      split
      · next v =>
        have hv : R.HasValue v := hr.2 (.ret v) List.mem_cons_self
        exact Job.done_within hv hr.1
      · exact hr
      · exact Job.data_within rfl hr.1
      · exact ih hss.2 hr.2 hr.1

end Eval

/-- **A tree is evaluated within a realm.** -/
theorem Node.evalWithin_within {R : Realm} {n : Node} {fuel : Nat} {ctx : Context} {s : Store}
    (hn : n.Every R.part) (hp : R.path ctx.env.path) (hs : R.HasStore s) :
    (n.evalWithin fuel ctx s).Sat R.mayFault R.Good := by
  cases n with
  | program p => exact Eval.program_within fuel hn (by simp) hp hs
  | stmt st => exact Eval.Job.run_within R fuel (.stmt st) ctx s hn hp hs
  | expr e => exact Eval.Job.run_within R fuel (.expr e) ctx s hn hp hs

end Incognita
