import Mathlib.Data.Set.Defs
import Incognita.Proofs.Frame
import Incognita.Proofs.Operators
import Incognita.Proofs.Sessions

namespace Incognita

/-!
# Store — what can be reached

Values hold closures, closures have scopes, and scopes bind values.  What can be reached from some
values that way is all that an evaluation which starts from them can see.

* `Store.Reaches` — the closures that can be reached from some values;
* `Store.scopesFrom`, `Store.closuresFrom` — the scopes and the numbers of closures;
* `Store.Allocated` — everything that can be reached is there;
* `Store.Closed` — whatever is bound anywhere refers to what is there;
* `Eval.Job.run_closed` — evaluations keep a store closed;
* `Session.Reached.allocated` — in a session everything that can be reached is there.
-/

/-- The closure that a value holds, also while a function is being left with it. -/
def Value.closure? : Value → Option Closure
  | .fn c => some c
  | .ret v => v.closure?
  | _ => none

/-! ### Reachable scopes and closures -/

namespace Store

/-- The closure can be reached from some values, through the scopes of closures and what is
    bound there. -/
inductive Reaches (s : Store) (roots : List Value) : Closure → Prop
  /-- The values themselves. -/
  | root {v c} (hv : v ∈ roots) (hc : v.closure? = some c) : Reaches s roots c
  /-- Whatever is bound in a scope of a function that can be reached. -/
  | bound {c i x v d} (hc : Reaches s roots c) (hi : i ∈ c.scopes)
      (hv : s.binding? i x = some v) (hd : v.closure? = some d) : Reaches s roots d

/-- The scopes that can be reached from some values. -/
def scopesFrom (s : Store) (roots : List Value) : Set ScopeId :=
  {i | ∃ c, s.Reaches roots c ∧ i ∈ c.scopes}

/-- The numbers of the closures that can be reached from some values. -/
def closuresFrom (s : Store) (roots : List Value) : Set Nat :=
  {n | ∃ c, s.Reaches roots c ∧ c.id = n}

/-- Everything that can be reached is there. -/
structure Allocated (s : Store) (roots : List Value) : Prop where
  scopes : ∀ i ∈ s.scopesFrom roots, i < s.scopes.size
  closures : ∀ n ∈ s.closuresFrom roots, n < s.closures

end Store

/-! ### Closed stores -/

/-- The scopes of the closure and the closure itself are there. -/
structure Closure.Inside (s : Store) (c : Closure) : Prop where
  /-- The scopes that it was made in are there. -/
  scopes : ∀ i ∈ c.scopes, i < s.scopes.size
  /-- Its number has been given out. -/
  id : c.id < s.closures

/-- The closure that the value holds, if any, is there. -/
def Value.Inside (s : Store) (v : Value) : Prop := ∀ c, v.closure? = some c → c.Inside s

/-- Whatever is bound anywhere refers to what is there. -/
def Store.Closed (s : Store) : Prop := ∀ i x v, s.binding? i x = some v → v.Inside s

/-- The scopes of the environment are there. -/
def Env.Inside (s : Store) (env : Env) : Prop := ∀ i ∈ env.path, i < s.scopes.size

/-- The store is closed, has grown out of another one, and some values refer to what is there. -/
structure Store.ClosedAfter (s t : Store) (vs : List Value) : Prop where
  /-- Nothing that was there is gone. -/
  grows : s.Grows (fun _ _ => True) t
  /-- The store refers to nothing but what is there. -/
  closed : t.Closed
  /-- Neither do the values. -/
  inside : ∀ v ∈ vs, v.Inside t

section

variable {w : ScopeId → String → Prop} {s t u : Store} {v : Value} {vs ws : List Value}

/-- What is no closure has no scope that could be outside. -/
theorem Value.inside_of_data (h : v.closure? = none) : v.Inside s :=
  fun c hc => absurd (h.symm.trans hc) (by simp)

/-- Operators give no closures. -/
theorem Value.Computed.closure?_eq (h : v.Computed) : v.closure? = none := by cases h <;> rfl

/-- What is inside a store is inside every store that has grown from it. -/
theorem Value.Inside.grows (h : v.Inside s) (hg : s.Grows w t) : v.Inside t := by
  intro c hc
  exact ⟨fun i hi => Nat.lt_of_lt_of_le ((h c hc).scopes i hi) hg.size,
    Nat.lt_of_lt_of_le (h c hc).id hg.closures⟩

/-- So is an environment. -/
theorem Env.Inside.grows {env : Env} (h : env.Inside s) (hg : s.Grows w t) : env.Inside t :=
  fun i hi => Nat.lt_of_lt_of_le (h i hi) hg.size

/-- The scope of a call and the scopes around it are there. -/
theorem Env.inside_enter {c : Closure} (h : c.Inside s) (b : Bindings) (n : Nat) :
    (s.alloc c.scopes b).1.Inside ((s.alloc c.scopes b).2.logCall c n) := by
  intro i hi
  show i < (s.alloc c.scopes b).2.scopes.size
  rw [Store.size_alloc]
  rcases List.mem_cons.1 hi with rfl | hi
  · exact Nat.lt_succ_self _
  · exact Nat.lt_succ_of_lt (h.scopes i hi)

namespace Store

/-- What a closed store binds is inside of it. -/
theorem Closed.get? (h : s.Closed) {path : List ScopeId} {x : String}
    (hv : s.get? path x = some v) : v.Inside s := by
  obtain ⟨i, -, hb⟩ := binding?_of_get? hv
  exact h i x v hb

/-- What is bound first, is there already. -/
theorem Closed.set (h : s.Closed) (i : ScopeId) (x : String) (hv : v.Inside s) :
    (s.set i x v).Closed := by
  have hg : s.Grows (fun _ _ => True) (s.set i x v) := .set s v trivial
  intro j y w hw
  rw [binding?_set] at hw
  split at hw
  · obtain rfl := Option.some.inj hw
    exact hv.grows hg
  · exact (h j y w hw).grows hg

/-- A call binds its arguments, which are there already. -/
theorem Closed.enter (h : s.Closed) {c : Closure} (names : List Ident)
    (hvs : ∀ v ∈ vs, v.Inside s) (n : Nat) :
    ((s.alloc c.scopes (bindParams names vs)).2.logCall c n).Closed := by
  have hg : s.Grows (fun _ _ => True) _ := .enter s c (bindParams names vs) n
  intro j y w hw
  rw [binding?_logCall, binding?_alloc] at hw
  split at hw
  · exact (hvs w (lookup_bindParams hw)).grows hg
  · exact (h j y w hw).grows hg

/-- A new function binds nothing. -/
theorem Closed.newClosure (h : s.Closed) (token : Token) (params : List (Option Ident))
    (body : Block) (path : List ScopeId) : (s.newClosure token params body path).2.Closed :=
  fun i x v hv => Value.Inside.grows (h i x v hv)
    (Grows.newClosure (w := fun _ _ => True) s token params body path)

/-- **In a closed store everything that can be reached is there.**  By induction on the way there:
    each scope that a bound closure refers to has been allocated. -/
theorem Closed.allocated (h : s.Closed) (hvs : ∀ v ∈ vs, v.Inside s) : s.Allocated vs := by
  -- One step is enough, since what is bound in a closed store is there wherever it is bound.
  have hall : ∀ c, s.Reaches vs c → c.Inside s := by
    intro c hc
    cases hc with
    | root hv hc => exact hvs _ hv c hc
    | bound _ _ hv hd => exact h _ _ _ hv c hd
  refine ⟨?_, ?_⟩
  · rintro i ⟨c, hc, hi⟩
    exact (hall c hc).scopes i hi
  · rintro _ ⟨c, hc, rfl⟩
    exact (hall c hc).id

namespace ClosedAfter

theorem refl (hs : s.Closed) (hvs : ∀ v ∈ vs, v.Inside s) : s.ClosedAfter s vs :=
  ⟨.refl _ s, hs, hvs⟩

/-- Fewer values need not be looked at. -/
theorem subset (h : s.ClosedAfter t vs) (hsub : ∀ w ∈ ws, w ∈ vs) : s.ClosedAfter t ws :=
  ⟨h.grows, h.closed, fun w hw => h.inside w (hsub w hw)⟩

/-- What was there before is still there. -/
theorem trans (h : s.ClosedAfter t vs) (h' : t.ClosedAfter u ws) : s.ClosedAfter u (ws ++ vs) where
  grows := h.grows.trans h'.grows fun _ _ => trivial
  closed := h'.closed
  inside := by
    intro v hv
    rcases List.mem_append.1 hv with hv | hv
    · exact h'.inside v hv
    · exact (h.inside v hv).grows h'.grows

/-- One value that is inside will do. -/
theorem value (h : s.ClosedAfter t vs) (hv : v.Inside t) : s.ClosedAfter t [v] :=
  ⟨h.grows, h.closed, by simpa using hv⟩

/-- A result that holds no closure. -/
theorem data (h : s.ClosedAfter t vs) (hv : v.closure? = none) : s.ClosedAfter t [v] :=
  h.value (Value.inside_of_data hv)

end ClosedAfter

end Store

end

/-! ### Evaluations keep stores closed -/

namespace Eval

/-- Unwrapping gives the value that was returned, or no closure. -/
theorem inside_unwrap {s : Store} {r : Result} (h : ∀ v ∈ r.toList, v.Inside s) :
    (unwrap r).Inside s := by
  cases r with
  | none => exact Value.inside_of_data rfl
  | some v =>
    have hv : v.Inside s := h v (by simp)
    cases v with
    | ret w => exact hv
    | brk => exact Value.inside_of_data rfl
    | _ => exact hv

namespace Job

/-- The values that an evaluation starts from. -/
def held : Job → List Value
  | call f vs => f :: vs
  | stmts _ last => last.toList
  | _ => []

/-- The values that an evaluation gives. -/
def values : (j : Job) → j.Result → List Value
  | args _, .ok vs => vs
  | args _, .error v => [v]
  | expr _, r | logical _, r | call _ _, r | loop _ _, r | block _, r | stmts _ _, r
  | stmt _, r => r.toList

/-- Every evaluation in an environment that is there keeps a closed store closed. -/
def AllClosed (fuel : Nat) : Prop :=
  ∀ (j : Job) (ctx : Context) (s : Store), ctx.env.Inside s → s.Closed →
    (∀ v ∈ j.held, v.Inside s) →
    (j.run fuel ctx s).Sat True fun r t => s.ClosedAfter t (j.values r)

variable {fuel : Nat} {ctx : Context} {s t : Store} {kept : List Value}

/-- An evaluation that is part of another one, which keeps some values. -/
theorem part_closed (ih : AllClosed fuel) (j : Job) (hc : ctx.env.Inside s)
    (h : s.ClosedAfter t (j.held ++ kept)) :
    (j.run fuel ctx t).Sat True fun r u => s.ClosedAfter u (j.values r ++ kept) := by
  have hheld : ∀ v ∈ j.held, v.Inside t := fun v hv => h.inside v (List.mem_append_left _ hv)
  refine (ih j ctx t (hc.grows h.grows) h.closed hheld).mono fun r u hu => ?_
  -- What is kept was there before the evaluation.
  have hkept : s.ClosedAfter t kept := h.subset fun w hw => List.mem_append_right _ hw
  exact hkept.trans hu

/-- An evaluation that another one ends with. -/
theorem last_closed (ih : AllClosed fuel) (j : Job) (hc : ctx.env.Inside s)
    (h : s.ClosedAfter t kept) (hheld : ∀ v ∈ j.held, v ∈ kept) :
    (j.run fuel ctx t).Sat True fun r u => s.ClosedAfter u (j.values r) := by
  have hstart : s.ClosedAfter t (j.held ++ []) := h.subset (by simpa using hheld)
  exact (part_closed ih j hc hstart).mono fun r u hu => hu.subset (by simp)

/-- What stays closed up to an operand and from its value on stays closed up to the end. -/
theorem operand_closed {o : Outcome Incognita.Result}
    {k : Value → Store → Outcome Incognita.Result}
    (h : o.Sat True fun r t => s.ClosedAfter t (r.toList ++ kept))
    (hk : ∀ v t, s.ClosedAfter t (v :: kept) →
      (k v t).Sat True fun r u => s.ClosedAfter u r.toList) :
    (o.operand k).Sat True fun r u => s.ClosedAfter u r.toList := by
  have hval : ∀ (r : Incognita.Result) t, s.ClosedAfter t (r.toList ++ kept) →
      s.ClosedAfter t (r.getD .null :: kept) := by
    intro r t h
    cases r with
    | none => exact ⟨h.grows, h.closed, List.forall_mem_cons.2 ⟨Value.inside_of_data rfl, h.inside⟩⟩
    | some v => exact h
  refine h.operand ?_ ?_
  · intro r t hr _
    exact (hval r t hr).value ((hval r t hr).inside _ List.mem_cons_self)
  · intro r t hr _
    exact hk _ t (hval r t hr)

/-- The values of all parts of an expression are inside, and so is what is made of them. -/
theorem expr_closed (ih : AllClosed fuel) (e : Expr) (hc : ctx.env.Inside s) (hs : s.Closed) :
    (Eval.expr (fuel + 1) ctx e s).Sat True fun r t => s.ClosedAfter t r.toList := by
  have hstart : s.ClosedAfter s [] := .refl hs (by simp)
  cases e with
  | missing | bool | str => simp only [Eval.expr]; exact hstart.data rfl
  | ident x =>
    rw [expr_ident]
    refine hstart.value ?_
    cases hv : s.get? ctx.env.path x.name with
    | none => exact Value.inside_of_data rfl
    | some v => exact hs.get? hv
  | int t v => cases v <;> simp only [Eval.expr] <;> exact hstart.data rfl
  | unary t op e =>
    simp only [Eval.expr]
    refine operand_closed (part_closed ih (.expr e) hc hstart) fun v t ht => ?_
    exact ht.data (Value.computed_unary op v).closure?_eq
  | binary t l op r =>
    simp only [Eval.expr]
    refine operand_closed (part_closed ih (.expr l) hc hstart) fun v t ht => ?_
    have hlogical := last_closed ih (.logical r) hc ht (by simp [held])
    split
    · split
      · exact hlogical
      · exact ht.data rfl
    · split
      · split
        · exact ht.data rfl
        · exact hlogical
      · refine operand_closed (part_closed ih (.expr r) hc ht) fun w t ht => ?_
        exact ht.data (Value.computed_binary op v w).closure?_eq
  | choice t c a b =>
    rw [expr_choice]
    refine operand_closed (part_closed ih (.expr c) hc hstart) fun v t ht => ?_
    split
    · exact last_closed ih (.block a) hc ht (by simp [held])
    · split
      · exact ht.data rfl
      · exact last_closed ih (.block b) hc ht (by simp [held])
  | loop t c b =>
    simp only [Eval.expr]
    exact ih (.loop c b) ctx s hc hs (by simp [held])
  | fn t ps b =>
    simp only [Eval.expr]
    refine ⟨.newClosure s t ps b ctx.env.path, hs.newClosure t ps b ctx.env.path, ?_⟩
    simp only [Option.toList_some, List.mem_singleton, forall_eq]
    -- The closure is the newest one, in the scopes of the environment.
    rintro c ⟨⟩
    exact ⟨hc, Nat.lt_succ_self _⟩
  | call t f as =>
    simp only [Eval.expr]
    refine operand_closed (part_closed ih (.expr f) hc hstart) fun v t ht => ?_
    refine (part_closed ih (.args as) hc ht).bind fun vs t ht => ?_
    cases vs with
    | ok vs => exact last_closed ih (.call v vs) hc ht (by simp [held, values, or_comm])
    | error signal => exact ht.subset (by simp [values])

/-- Arguments that have been evaluated stay inside while those behind them are. -/
theorem args_closed (ih : AllClosed fuel) (es : List Expr) (hc : ctx.env.Inside s)
    (hs : s.Closed) : (Eval.args (fuel + 1) ctx es s).Sat True fun r t =>
      s.ClosedAfter t ((args es).values r) := by
  have hstart : s.ClosedAfter s [] := .refl hs (by simp)
  cases es with
  | nil => simp only [Eval.args]; exact hstart
  | cons e es =>
    simp only [Eval.args]
    refine (part_closed ih (.expr e) hc hstart).bind fun r t hr => ?_
    -- The value of the first argument is held while the others are evaluated.
    have hv : s.ClosedAfter t [r.getD .null] := by
      cases r with
      | none => exact hr.data rfl
      | some v => exact hr
    split
    · exact hv
    · refine (part_closed ih (.args es) hc hv).bind fun vs t ht => ?_
      cases vs with
      | ok vs =>
        have hlist : s.ClosedAfter t (r.getD .null :: vs) :=
          ht.subset (by simp [values, or_comm])
        exact hlist
      | error signal =>
        have hsignal : s.ClosedAfter t [signal] := ht.subset (by simp [values])
        exact hsignal

/-- A call runs in a scope of its own, inside those of the closure. -/
theorem call_closed (ih : AllClosed fuel) (f : Value) (vs : List Value) (hs : s.Closed)
    (hheld : ∀ v ∈ f :: vs, v.Inside s) :
    (Eval.call (fuel + 1) ctx f vs s).Sat True fun r t => s.ClosedAfter t r.toList := by
  have hstart : s.ClosedAfter s [] := .refl hs (by simp)
  obtain ⟨hf, hvs⟩ := List.forall_mem_cons.1 hheld
  cases f with
  | fn c =>
    simp only [Eval.call]
    split
    · exact hstart.data rfl
    · split
      · exact hstart.data rfl
      cases Ident.present? c.params with
      | none => trivial
      | some names =>
        have hg : s.Grows (fun _ _ => True) _ :=
          .enter s c (bindParams names vs) (ctx.depth + 1)
        -- The body runs in a new scope inside those of the function, which are inside the store.
        have henv := Env.inside_enter (hf c rfl) (bindParams names vs) (ctx.depth + 1)
        refine (ih (.block c.body) _ _ henv (hs.enter names hvs _) (by simp [held])).bind
          fun r t ht => ?_
        exact ⟨hg.trans ht.grows fun _ hw => hw, ht.closed,
          by simpa using inside_unwrap ht.inside⟩
  | _ => simp only [Eval.call]; exact hstart.data rfl

/-- A loop gives null or what its body has ended with. -/
theorem loop_closed (ih : AllClosed fuel) (c : Expr) (b : Block) (hc : ctx.env.Inside s)
    (hs : s.Closed) :
    (Eval.loop (fuel + 1) ctx c b s).Sat True fun r t => s.ClosedAfter t r.toList := by
  have hstart : s.ClosedAfter s [] := .refl hs (by simp)
  simp only [Eval.loop]
  refine operand_closed (part_closed ih (.expr c) hc hstart) fun v t ht => ?_
  split
  · refine (last_closed ih (.block b) hc ht (by simp [held])).bind fun r t hr => ?_
    split
    · exact hr.data rfl
    · exact hr
    · exact hr
    · exact last_closed ih (.loop c b) hc hr (by simp [held])
  · exact ht.data rfl

/-- Statements give what the last of them has given. -/
theorem stmts_closed (ih : AllClosed fuel) (ss : List Stmt) (last : Incognita.Result)
    (hc : ctx.env.Inside s) (hs : s.Closed) (hlast : ∀ v ∈ last.toList, v.Inside s) :
    (Eval.stmts (fuel + 1) ctx ss last s).Sat True fun r t => s.ClosedAfter t r.toList := by
  cases ss with
  | nil => simp only [Eval.stmts]; exact .refl hs hlast
  | cons st ss =>
    simp only [Eval.stmts]
    refine (ih (.stmt st) ctx s hc hs (by simp [held])).bind fun r t hr => ?_
    split
    · exact hr
    · exact last_closed ih (.stmts ss r) hc hr fun v hv => hv

/-- A binding binds a value that is inside, which keeps the store closed. -/
theorem stmt_closed (ih : AllClosed fuel) (st : Stmt) (hc : ctx.env.Inside s) (hs : s.Closed) :
    (Eval.stmt (fuel + 1) ctx st s).Sat True fun r t => s.ClosedAfter t r.toList := by
  have hstart : s.ClosedAfter s [] := .refl hs (by simp)
  cases st with
  | missing | brk => simp only [Eval.stmt]; exact hstart.data rfl
  | bind tok x e =>
    simp only [Eval.stmt]
    refine operand_closed (part_closed ih (.expr e) hc hstart) fun v t ht => ?_
    cases x with
    | none => trivial
    | some x =>
      have hset := ht.closed.set ctx.env.scope x.name (ht.inside v List.mem_cons_self)
      exact ⟨ht.grows.trans (.set t v trivial) fun _ hw => hw, hset, by simp⟩
  | ret tok e =>
    by_cases he : e = .missing
    · simp only [he, Eval.stmt]
      exact hstart.data rfl
    · rw [stmt_ret he]
      refine operand_closed (part_closed ih (.expr e) hc hstart) fun v t ht => ?_
      exact ht.value (ht.inside v List.mem_cons_self)
  | expr tok e => simp only [Eval.stmt]; exact ih (.expr e) ctx s hc hs (by simp [held])
  | block b => simp only [Eval.stmt]; exact ih (.block b) ctx s hc hs (by simp [held])

/-- **Evaluations keep a closed store closed**, and what they give refers to what is there.  A call
    allocates the scope that its body's closures refer to before the body is evaluated. -/
theorem run_closed (fuel : Nat) : AllClosed fuel := by
  induction fuel with
  | zero =>
    intro j ctx s _ _ _
    rw [run_zero]
    trivial
  | succ fuel ih =>
    intro j ctx s hc hs hheld
    cases j with
    | expr e => exact expr_closed ih e hc hs
    | logical e =>
      simp only [run, Eval.logical]
      have hstart : s.ClosedAfter s [] := .refl hs (by simp)
      exact operand_closed (part_closed ih (.expr e) hc hstart) fun v t ht => ht.data rfl
    | args es => exact args_closed ih es hc hs
    | call f vs => exact call_closed ih f vs hs hheld
    | loop c b => exact loop_closed ih c b hc hs
    | block b =>
      cases b with
      | missing => simp only [run, Eval.block]; trivial
      | mk tok ss =>
        simp only [run, Eval.block]
        exact ih (.stmts ss none) ctx s hc hs (by simp [held])
    | stmts ss last => exact stmts_closed ih ss last hc hs hheld
    | stmt st => exact stmt_closed ih st hc hs

end Job

/-- The statements of a program, whose result is a value that was returned or the last one. -/
theorem program_closed (fuel : Nat) {ctx : Context} {ss : List Stmt} {last : Result} {s t : Store}
    (hc : ctx.env.Inside s) (h : s.ClosedAfter t last.toList) :
    (program fuel ctx ss last t).Sat True fun r u => s.ClosedAfter u r.toList := by
  induction fuel generalizing ss last t with
  | zero => simp only [program]; trivial
  | succ fuel ih =>
    cases ss with
    | nil => simp only [program]; exact h
    | cons st ss =>
      simp only [program]
      refine (Job.last_closed (Job.run_closed fuel) (.stmt st) hc h (by simp [Job.held])).bind
        fun r u hu => ?_
      split
      · next v => exact hu.value (hu.inside (.ret v) List.mem_cons_self)
      · exact hu
      · exact hu.data rfl
      · exact ih hu

end Eval

/-! ### Sessions -/

/-- **In a session whatever is bound refers to what is there.** -/
theorem Session.Reached.closed {paint : Paint} {settings : Settings} {s : Session}
    (h : Reached paint settings s) : Env.root.Inside s.store ∧ s.store.Closed := by
  refine h.of_evaluate (P := fun s => Env.root.Inside s.store ∧ s.store.Closed) ⟨?_, ?_⟩ ?_
  · simp [Env.Inside, Env.path, Env.root, ofSettings, Store.initial]
  · intro i x v hv
    cases i <;> simp [ofSettings, Store.initial, Store.binding?] at hv
  · rintro s source fuel r store ⟨henv, hs⟩ - hd
    have hclosed := @Eval.program_closed fuel s.context (parse source).program.stmts none s.store
      s.store henv (.refl hs (by simp))
    rw [hd] at hclosed
    -- The calls that were noted down hold nothing that is bound.
    have hg : store.Grows (fun _ _ => True) { store with calls := [] } :=
      ⟨Nat.le_refl _, Nat.le_refl _, fun _ _ => rfl, id⟩
    exact ⟨(henv.grows hclosed.grows).grows hg, fun i x v hv => (hclosed.closed i x v hv).grows hg⟩

/-- **In a session everything that can be reached is there.** -/
theorem Session.Reached.allocated {paint : Paint} {settings : Settings} {s : Session}
    (h : Reached paint settings s) {roots : List Value}
    (hroots : ∀ v ∈ roots, ∃ x, s.get? x = some v) : s.store.Allocated roots := by
  refine h.closed.2.allocated fun v hv => ?_
  obtain ⟨x, hx⟩ := hroots v hv
  exact h.closed.2.get? hx

end Incognita
