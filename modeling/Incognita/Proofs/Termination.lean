import Incognita.Proofs.Reading.Exact
import Incognita.Proofs.Realm

namespace Incognita

/-!
# Eval — only loops run forever

A function may call itself, or be handed to itself, without end, but calls are only nested up to a
limit.  Between two calls an evaluation without loops walks down its tree, so it ends by induction
on how many more calls may be nested and, for each of them, on the tree.

* `Eval.Settles` — an evaluation gives one and the same thing under all bounds from some one on;
* `Eval.LoopFree` — evaluations in a context meet no loops, and their calls settle;
* `Eval.expr_settles`, `Eval.call_settles`, `Eval.program_settles` — evaluations without loops;
* `Store.ReachesFrom`, `Realm.inSight` — what can be reached from an environment;
* `Session.Reached.intact` — in a session no function that is bound lacks anything;
* `evaluates_of_loopFree` — a program without loops evaluates to a result.
-/

namespace Eval

/-! ### Evaluations that settle -/

/-- Under every bound from some one on the evaluation gives the same, which is not that a bound
    was reached. -/
def Settles {α : Type} (o : Nat → Outcome α) : Prop :=
  ∃ n v, v ≠ .outOfFuel ∧ ∀ m, n ≤ m → o m = v

namespace Settles

variable {α β : Type} {o o' : Nat → Outcome α}

theorem done (a : α) (s : Store) : Settles fun _ => Outcome.done a s :=
  ⟨0, .done a s, nofun, fun _ _ => rfl⟩

theorem fault : Settles fun _ => (Outcome.fault : Outcome α) :=
  ⟨0, .fault, nofun, fun _ _ => rfl⟩

/-- The first step takes one of the bound. -/
theorem of_succ (h : Settles fun n => o (n + 1)) : Settles o := by
  obtain ⟨n, v, hv, hn⟩ := h
  refine ⟨n + 1, v, hv, fun m hm => ?_⟩
  cases m with
  | zero => exact absurd hm (Nat.not_succ_le_zero n)
  | succ m => exact hn m (Nat.le_of_succ_le_succ hm)

/-- An evaluation that depends on a condition settles if both sides of it do. -/
theorem ite {c : Prop} [Decidable c] (h : c → Settles o) (h' : ¬ c → Settles o') :
    Settles fun n => if c then o n else o' n := by
  by_cases hc : c
  · simp only [if_pos hc]
    exact h hc
  · simp only [if_neg hc]
    exact h' hc

/-- What an evaluation settles on is what it gives, so the next one only has to settle from
    there. -/
theorem bind {F : Prop} {Q : α → Store → Prop} {k : Nat → α → Store → Outcome β} (h : Settles o)
    (hq : ∀ n, (o n).Sat F Q) (hk : ∀ a t, Q a t → Settles fun n => k n a t) :
    Settles fun n => (o n).bind (k n) := by
  obtain ⟨n, v, hv, hn⟩ := h
  have hbind : ∀ m, n ≤ m → (o m).bind (k m) = v.bind (k m) := fun m hm => by rw [hn m hm]
  cases v with
  | outOfFuel => exact absurd rfl hv
  | fault => exact ⟨n, .fault, nofun, hbind⟩
  | done a t =>
    have ha : Q a t := by
      have hsat := hq n
      rwa [hn n (Nat.le_refl n)] at hsat
    obtain ⟨n', w, hw, hn'⟩ := hk a t ha
    refine ⟨max n n', w, hw, fun m hm => ?_⟩
    have hfirst := hbind m (Nat.le_trans (Nat.le_max_left n n') hm)
    have hthen := hn' m (Nat.le_trans (Nat.le_max_right n n') hm)
    exact hfirst.trans hthen

/-- The rule for `Outcome.operand`: the rest has to settle for values of the realm. -/
theorem operand {R : Realm} {o : Nat → Outcome Result}
    {k : Nat → Value → Store → Outcome Result} (h : Settles o)
    (hq : ∀ n, (o n).Sat R.mayFault R.Good)
    (hk : ∀ v t, R.HasValue v → R.HasStore t → Settles fun n => k n v t) :
    Settles fun n => (o n).operand (k n) := by
  refine h.bind hq fun r t hr => ?_
  refine .ite (fun _ => .done _ _) fun _ => ?_
  exact hk _ t (Realm.hasValue_getD hr.2) hr.1

end Settles

/-! ### Evaluations without loops -/

/-- Calls of the functions of a realm settle. -/
def CallsSettle (R : Realm) (ctx : Context) : Prop :=
  ∀ (f : Value) (vs : List Value) (s : Store), R.HasValue f → (∀ v ∈ vs, R.HasValue v) →
    R.HasStore s → Settles fun n => call n ctx f vs s

/-- Evaluations of a realm meet no loops, and the calls that they make settle. -/
structure LoopFree (R : Realm) (ctx : Context) : Prop where
  /-- The environment is of the realm. -/
  path : R.path ctx.env.path
  /-- No part of a function is a loop. -/
  noLoop : ∀ n, R.part n → ¬ n.IsLoop
  /-- Calls need not be looked at any further. -/
  calls : CallsSettle R ctx

section

variable {R : Realm} {ctx : Context}

mutual

/-- **An expression without loops settles** where calls do, by induction on the expression. -/
theorem expr_settles (h : LoopFree R ctx) : (e : Expr) → e.Every R.part → (s : Store) →
    R.HasStore s → Settles fun n => expr n ctx e s
  | .missing, _, s, _ | .bool _ _, _, s, _ | .str _ _, _, s, _ | .int _ none, _, s, _
  | .int _ (some _), _, s, _ | .fn _ _ _, _, s, _ => by
    refine .of_succ ?_
    simp only [expr]
    exact .done _ _
  | .ident x, _, s, _ => by
    refine .of_succ ?_
    simp only [expr_ident]
    exact .done _ _
  | .unary _ op e, he, s, hs => by
    refine .of_succ ?_
    simp only [expr]
    have hwithin := fun n => Job.run_within R n (.expr e) ctx s he.2 h.path hs
    exact (expr_settles h e he.2 s hs).operand hwithin fun v t _ _ => .done _ _
  | .binary _ l op r, ⟨_, hl, hr⟩, s, hs => by
    refine .of_succ ?_
    simp only [expr]
    have hwithin := fun n => Job.run_within R n (.expr l) ctx s hl h.path hs
    refine (expr_settles h l hl s hs).operand hwithin fun v t _ ht => ?_
    have hright := expr_settles h r hr t ht
    have hwithin' := fun n => Job.run_within R n (.expr r) ctx t hr h.path ht
    have hlogical : Settles fun n => logical n ctx r t := by
      refine .of_succ ?_
      simp only [logical]
      exact hright.operand hwithin' fun w u _ _ => .done _ _
    refine .ite (fun _ => .ite (fun _ => hlogical) fun _ => .done _ _) fun _ => ?_
    refine .ite (fun _ => .ite (fun _ => .done _ _) fun _ => hlogical) fun _ => ?_
    exact hright.operand hwithin' fun w u _ _ => .done _ _
  | .choice _ c a b, ⟨_, hc, ha, hb⟩, s, hs => by
    refine .of_succ ?_
    simp only [expr_choice]
    have hwithin := fun n => Job.run_within R n (.expr c) ctx s hc h.path hs
    refine (expr_settles h c hc s hs).operand hwithin fun v t _ ht => ?_
    refine .ite (fun _ => block_settles h a ha t ht) fun _ => ?_
    exact .ite (fun _ => .done _ _) fun _ => block_settles h b hb t ht
  -- The realm has no loops, and the tree is of the realm.
  | .loop _ _ _, he, _, _ => absurd trivial (h.noLoop _ he.1)
  | .call _ f as, ⟨_, hf, has⟩, s, hs => by
    refine .of_succ ?_
    simp only [expr]
    have hwithin := fun n => Job.run_within R n (.expr f) ctx s hf h.path hs
    refine (expr_settles h f hf s hs).operand hwithin fun v t hv ht => ?_
    have hwithin' := fun n => Job.run_within R n (.args as) ctx t has h.path ht
    refine (args_settles h as has t ht).bind hwithin' fun vs u hvs => ?_
    cases vs with
    | ok vs => exact h.calls v vs u hv hvs.2 hvs.1
    | error signal => exact .done _ _

/-- The same for arguments, one after the other. -/
theorem args_settles (h : LoopFree R ctx) : (es : List Expr) → Expr.EveryAll R.part es →
    (s : Store) → R.HasStore s → Settles fun n => args n ctx es s
  | [], _, s, _ => by
    refine .of_succ ?_
    simp only [args]
    exact .done _ _
  | e :: es, ⟨he, hes⟩, s, hs => by
    refine .of_succ ?_
    simp only [args]
    have hwithin := fun n => Job.run_within R n (.expr e) ctx s he h.path hs
    refine (expr_settles h e he s hs).bind hwithin fun r t hr => ?_
    refine .ite (fun _ => .done _ _) fun _ => ?_
    have hwithin' := fun n => Job.run_within R n (.args es) ctx t hes h.path hr.1
    exact (args_settles h es hes t hr.1).bind hwithin' fun vs u _ => .done _ _

/-- The same for a statement. -/
theorem stmt_settles (h : LoopFree R ctx) : (st : Stmt) → st.Every R.part → (s : Store) →
    R.HasStore s → Settles fun n => stmt n ctx st s
  | .missing, _, s, _ | .brk _, _, s, _ => by
    refine .of_succ ?_
    simp only [stmt]
    exact .done _ _
  | .bind _ x e, ⟨_, he⟩, s, hs => by
    refine .of_succ ?_
    simp only [stmt]
    have hwithin := fun n => Job.run_within R n (.expr e) ctx s he h.path hs
    refine (expr_settles h e he s hs).operand hwithin fun v t _ _ => ?_
    cases x with
    | none => exact .fault
    | some x => exact .done _ _
  | .ret _ e, ⟨_, he⟩, s, hs => by
    refine .of_succ ?_
    by_cases hm : e = .missing
    · simp only [hm, stmt]
      exact .done _ _
    · simp only [stmt_ret hm]
      have hwithin := fun n => Job.run_within R n (.expr e) ctx s he h.path hs
      exact (expr_settles h e he s hs).operand hwithin fun v t _ _ => .done _ _
  | .expr _ e, ⟨_, he⟩, s, hs => by
    refine .of_succ ?_
    simp only [stmt]
    exact expr_settles h e he s hs
  | .block b, ⟨_, hb⟩, s, hs => by
    refine .of_succ ?_
    simp only [stmt]
    exact block_settles h b hb s hs

/-- The same for statements one after the other. -/
theorem stmts_settles (h : LoopFree R ctx) : (ss : List Stmt) → Stmt.EveryAll R.part ss →
    (last : Result) → (s : Store) → R.HasStore s → Settles fun n => stmts n ctx ss last s
  | [], _, last, s, _ => by
    refine .of_succ ?_
    simp only [stmts]
    exact .done _ _
  | st :: ss, ⟨hst, hss⟩, last, s, hs => by
    refine .of_succ ?_
    simp only [stmts]
    have hwithin := fun n => Job.run_within R n (.stmt st) ctx s hst h.path hs
    refine (stmt_settles h st hst s hs).bind hwithin fun r t hr => ?_
    exact .ite (fun _ => .done _ _) fun _ => stmts_settles h ss hss r t hr.1

/-- The same for a block. -/
theorem block_settles (h : LoopFree R ctx) : (b : Block) → b.Every R.part → (s : Store) →
    R.HasStore s → Settles fun n => block n ctx b s
  | .missing, _, s, _ => by
    refine .of_succ ?_
    simp only [block]
    exact .fault
  | .mk _ ss, hb, s, hs => by
    refine .of_succ ?_
    simp only [block]
    exact stmts_settles h ss hb none s hs

end

/-- **Calls settle where nothing loops**, however the functions call each other: each call leaves
    one less for the calls that its body makes.  The induction is on how many calls may still be
    nested.  When none may, a call ends with the error about the depth. -/
theorem call_settles (hloop : ∀ n, R.part n → ¬ n.IsLoop) {left : Nat}
    (hleft : ctx.limit - ctx.depth ≤ left) : CallsSettle R ctx := by
  induction left generalizing ctx with
  | zero =>
    intro f vs s _ _ _
    refine .of_succ ?_
    have hdeep : ctx.limit ≤ ctx.depth := Nat.le_of_sub_eq_zero (Nat.le_zero.1 hleft)
    cases f with
    | fn c =>
      simp only [call]
      refine .ite (fun _ => .done _ _) fun _ => ?_
      exact .ite (fun _ => .done _ _) fun hn => absurd hdeep hn
    | _ => simp only [call]; exact .done _ _
  | succ left ih =>
    intro f vs s hf hvs hs
    refine .of_succ ?_
    cases f with
    | fn c =>
      obtain ⟨hparts, hpath⟩ := hf c rfl
      simp only [call]
      refine .ite (fun _ => .done _ _) fun _ => ?_
      refine .ite (fun _ => .done _ _) fun _ => ?_
      cases Ident.present? c.params with
      | none => exact .fault
      | some names =>
        -- The body runs in a context one call deeper, in a new scope.
        let inner : Context := ⟨⟨s.scopes.size, c.scopes⟩, ctx.depth + 1, ctx.limit⟩
        have hinner : inner.limit - inner.depth ≤ left := by
          show ctx.limit - (ctx.depth + 1) ≤ left
          omega
        have hnew : R.path inner.env.path := R.path_cons hs.start hpath
        have hstore := hs.enter c names hvs (ctx.depth + 1)
        have hbody := block_settles ⟨hnew, hloop, ih hinner⟩ c.body hparts.2 _ hstore
        have hwithin := fun n => Job.run_within R n (.block c.body) inner _
          (Realm.hasBlock_body hparts) hnew hstore
        exact hbody.bind hwithin fun r t _ => .done _ _
    | _ => simp only [call]; exact .done _ _

/-- Without loops in its functions the calls of a realm settle, so its evaluations are `LoopFree`.
    -/
theorem loopFree (hloop : ∀ n, R.part n → ¬ n.IsLoop) (hp : R.path ctx.env.path) :
    LoopFree R ctx :=
  ⟨hp, hloop, call_settles hloop (Nat.le_refl _)⟩

/-- Programs without loops settle, by induction on their statements. -/
theorem program_settles (h : LoopFree R ctx) {ss : List Stmt} (hss : Stmt.EveryAll R.part ss)
    (last : Result) {s : Store} (hs : R.HasStore s) :
    Settles fun n => program n ctx ss last s := by
  induction ss generalizing last s with
  | nil =>
    refine .of_succ ?_
    simp only [program]
    exact .done _ _
  | cons st ss ih =>
    refine .of_succ ?_
    simp only [program]
    have hwithin := fun n => Job.run_within R n (.stmt st) ctx s hss.1 h.path hs
    refine (stmt_settles h st hss.1 s hs).bind hwithin fun r t hr => ?_
    have hrest := ih hss.2 r hr.1
    cases r with
    | none => exact hrest
    | some v =>
      cases v with
      | ret | err | brk => exact .done _ _
      | _ => exact hrest

end

end Eval

/-! ### What can be reached from an environment -/

/-- The closure can be reached from what is bound in the scopes of the environment. -/
def Store.ReachesFrom (s : Store) (env : Env) (c : Closure) : Prop :=
  ∃ i ∈ env.path, ∃ x v, s.binding? i x = some v ∧ s.Reaches [v] c

/-- What holds of every function that is bound anywhere holds of every one that can be reached. -/
theorem Store.ReachesFrom.of_bound {s : Store} {env : Env} {c : Closure} {P : Closure → Prop}
    (hc : s.ReachesFrom env c)
    (h : ∀ b ∈ s.scopes.toList, ∀ e ∈ b, ∀ d, e.2.closure? = some d → P d) : P c := by
  have hbound : ∀ {i x v d}, s.binding? i x = some v → v.closure? = some d → P d := by
    intro i x v d hv hd
    by_cases hi : i < s.scopes.size
    · rw [binding?, Array.getD_eq_getD_getElem?, Array.getElem?_eq_getElem hi] at hv
      obtain ⟨_, _, heq, -⟩ := List.lookup_eq_some_iff.1 hv
      have hmem : (x, v) ∈ s.scopes[i] := by
        show (x, v) ∈ (some s.scopes[i]).getD []
        rw [heq]
        exact List.mem_append_right _ List.mem_cons_self
      exact h _ (Array.getElem_mem_toList hi) (x, v) hmem d hd
    · rw [binding?_of_size_le (Nat.le_of_not_lt hi)] at hv
      exact absurd hv (by simp)
  obtain ⟨i, -, x, v, hv, hreach⟩ := hc
  -- However many closures are on the way, the last one is bound somewhere.
  induction hreach with
  | root hw hd =>
    rw [List.mem_singleton.1 hw] at hd
    exact hbound hv hd
  | bound _ _ hw hd _ => exact hbound hw hd

/-- The scope can be reached from the environment, or is not there yet. -/
def Store.InSight (s : Store) (env : Env) (i : ScopeId) : Prop :=
  i ∈ env.path ∨ (∃ c, s.ReachesFrom env c ∧ i ∈ c.scopes) ∨ s.scopes.size ≤ i

namespace Realm

variable {s : Store} {env : Env} {part : Node → Prop} {mayFault : Prop}
  {whole : mayFault ∨ ∀ n, part n → n.Whole}

/-- The functions that are made in scopes which can be reached from an environment. -/
def inSight (s : Store) (env : Env) (part : Node → Prop) (mayFault : Prop)
    (whole : mayFault ∨ ∀ n, part n → n.Whole) : Realm where
  part := part
  scope := s.InSight env
  path is := ∀ i ∈ is, s.InSight env i
  start := s.scopes.size
  mayFault := mayFault
  scope_of_mem h hi := h _ hi
  path_cons hi h := List.forall_mem_cons.2 ⟨.inr (.inr hi), h⟩
  whole := whole

/-- The path of an environment is in sight of it. -/
theorem inSight_path : (inSight s env part mayFault whole).path env.path := fun _ hi => .inl hi

/-- What is bound in sight can be reached, so the store is as far as the functions that can be
    reached are. -/
theorem inSight_hasStore (h : ∀ c, s.ReachesFrom env c → c.Every part) :
    (inSight s env part mayFault whole).HasStore s where
  start := Nat.le_refl _
  bound := by
    intro i x v hi hv c hc
    have hreach : s.ReachesFrom env c := by
      rcases hi with hi | ⟨d, ⟨j, hj, y, w, hw, hd⟩, hi⟩ | hi
      · exact ⟨i, hi, x, v, hv, .root List.mem_cons_self hc⟩
      · exact ⟨j, hj, y, w, hw, .bound hd hi hv hc⟩
      · rw [Store.binding?_of_size_le hi] at hv
        exact absurd hv (by simp)
    exact ⟨h c hreach, fun j hj => .inr (.inl ⟨c, hreach, hj⟩)⟩

/-- What can be reached from an environment of the realm is of the realm. -/
theorem HasStore.of_reachesFrom {R : Realm} {s : Store} (h : R.HasStore s) (hp : R.path env.path)
    {c : Closure} (hc : s.ReachesFrom env c) : c.Every R.part ∧ R.path c.scopes := by
  obtain ⟨i, hi, x, v, hv, hreach⟩ := hc
  induction hreach with
  | root hw hd =>
    rw [List.mem_singleton.1 hw] at hd
    exact h.bound (R.scope_of_mem hp hi) hv _ hd
  | bound _ hj hw hd ih => exact h.bound (R.scope_of_mem ih.2 hj) hw _ hd

/-- What is in sight later was in sight before, or is new. -/
theorem HasStore.inSight_of_inSight {t : Store} (h : (inSight s env part mayFault whole).HasStore t)
    {i : ScopeId} (hi : t.InSight env i) : s.InSight env i := by
  rcases hi with hi | ⟨c, hc, hi⟩ | hi
  · exact .inl hi
  · exact (h.of_reachesFrom inSight_path hc).2 i hi
  · exact .inr (.inr (Nat.le_trans h.start hi))

end Realm

/-! ### Sessions -/

/-- The functions that lack nothing without which an evaluation could not go on. -/
def Realm.intact : Realm where
  part := Node.Whole
  scope _ := True
  path _ := True
  start := 0
  mayFault := False
  scope_of_mem _ _ := trivial
  path_cons _ _ := trivial
  whole := .inr fun _ h => h

/-- All closures in a store of the realm `intact` are intact. -/
theorem Realm.HasStore.intact {s : Store} (h : Realm.intact.HasStore s) {env : Env} {c : Closure}
    (hc : s.ReachesFrom env c) : c.Intact :=
  (h.of_reachesFrom trivial hc).1

/-- **In a session no function that is bound lacks anything.** -/
theorem Session.Reached.intact {paint : Paint} {settings : Settings} {s : Session}
    (h : Reached paint settings s) {c : Closure} (hc : s.store.ReachesFrom .root c) :
    c.Intact := by
  have hstore : Realm.intact.HasStore s.store := by
    refine h.of_evaluate (P := fun s => Realm.intact.HasStore s.store) ⟨Nat.zero_le _, ?_⟩ ?_
    · intro i x v _ hv
      cases i <;> simp [ofSettings, Store.initial, Store.binding?] at hv
    · intro s source fuel r store hs _ hd
      have hwithin := @Node.evalWithin_within .intact (.program (parse source).program) fuel
        s.context s.store (intact_of_parse source) trivial hs
      have heval : (Node.program (parse source).program).evalWithin fuel s.context s.store =
          .done r store := hd
      rw [heval] at hwithin
      exact ⟨Nat.zero_le _, hwithin.1.bound⟩
  exact hstore.intact hc

/-! ### Programs without loops -/

/-- **Only loops run forever.**  A program without loops ends, whatever it was read from, if all
    functions that can be reached from its environment are without loops, and whatever the limit
    on nested calls is.  It ends with a result unless one of these functions lacks a part, which
    none does in a session. -/
theorem evaluates_of_loopFree (source : String) {ctx : Context} {s : Store}
    (hp : (parse source).program.LoopFree)
    (hs : ∀ c, s.ReachesFrom ctx.env c → c.LoopFree) :
    (∃ fuel, (Node.program (parse source).program).evalWithin fuel ctx s ≠ .outOfFuel) ∧
    ((∀ c, s.ReachesFrom ctx.env c → c.Intact) →
      ∃ r t, (Node.program (parse source).program).Evaluates ctx s r t) := by
  let loopFree : Realm := .inSight s ctx.env (fun n => ¬ n.IsLoop) True (.inl trivial)
  have hends : ∃ fuel, (Node.program (parse source).program).evalWithin fuel ctx s ≠
      .outOfFuel := by
    have hloopFree : Eval.LoopFree loopFree ctx := Eval.loopFree (fun _ h => h) Realm.inSight_path
    obtain ⟨fuel, v, hv, hfuel⟩ :=
      Eval.program_settles hloopFree hp none (Realm.inSight_hasStore hs)
    exact ⟨fuel, fun heq => hv ((hfuel fuel (Nat.le_refl fuel)).symm.trans heq)⟩
  refine ⟨hends, fun hintact => ?_⟩
  obtain ⟨fuel, hfuel⟩ := hends
  let whole : Realm := .inSight s ctx.env Node.Whole False (.inr fun _ h => h)
  -- An intact program does not come to a fault, so what is left is a result.
  have hwithin : ((Node.program (parse source).program).evalWithin fuel ctx s).Sat False
      whole.Good :=
    @Node.evalWithin_within whole _ fuel ctx s (intact_of_parse source) Realm.inSight_path
      (Realm.inSight_hasStore hintact)
  cases heq : (Node.program (parse source).program).evalWithin fuel ctx s with
  | done r t => exact ⟨r, t, fuel, heq⟩
  | fault =>
    rw [heq] at hwithin
    exact hwithin.elim
  | outOfFuel => exact absurd heq hfuel

/-- A function that calls itself without end: `operacion() { f() }`. -/
def Closure.callsItself : Closure :=
  let f : Ident := .ofToken ⟨.ident, "f"⟩
  let body : Block := .mk ⟨.lbrace, "\x7b"⟩
    [.expr ⟨.ident, "f"⟩ (.call ⟨.lparen, "("⟩ (.ident f) [])]
  ⟨⟨.kwFunction, "operacion"⟩, [], body, [0], 0⟩

/-- A store that binds a function which calls itself. -/
def Store.callsItself : Store := ⟨#[[("f", .fn .callsItself)]], [], 1⟩

/-- The store `callsItself` has one closure. -/
theorem Store.reachesFrom_callsItself {c : Closure}
    (h : Store.callsItself.ReachesFrom .root c) : c = .callsItself := by
  refine h.of_bound (P := (· = .callsItself)) fun b hb e he d hd => ?_
  simp only [callsItself, List.mem_singleton] at hb
  rw [hb, List.mem_singleton] at he
  rw [he] at hd
  exact (Option.some.inj hd).symm

/-- Calling it ends, since calls are only nested up to the limit. -/
theorem evaluates_callsItself : (parse "f()").program.LoopFree ∧
    ∃ r t, (Node.program (parse "f()").program).Evaluates ⟨.root, 0, 4096⟩ .callsItself r t := by
  have htokens : tokenize "f()".toList = [⟨.ident, "f"⟩, ⟨.lparen, "("⟩, ⟨.rparen, ")"⟩] := by
    decide +kernel
  have hcall : Parser.Reads
      (.expr 0 Power.lowest [⟨.ident, "f"⟩, ⟨.lparen, "("⟩, ⟨.rparen, ")"⟩])
      (.call ⟨.lparen, "("⟩ (.ident (.ofToken ⟨.ident, "f"⟩)) []) [] 0 :=
    .expr rfl (.leaf rfl) (.call (by decide) rfl (.noArgs rfl) (.stop (by simp [Parser.Stops])))
  have hp : (parse "f()").program.LoopFree := by
    rw [parse, htokens, parseTokens_eq_of_readsAll (.cons (.exprStmt hcall) .nil)]
    simp [Program.LoopFree, Program.Every, Stmt.EveryAll, Stmt.Every, Expr.Every, Expr.EveryAll,
      Node.IsLoop]
  have hf : Closure.callsItself.LoopFree ∧ Closure.callsItself.Intact := by
    simp [Closure.LoopFree, Closure.Intact, Closure.Every, Closure.callsItself, Stmt.EveryAll,
      Stmt.Every, Expr.Every, Block.Every, Expr.EveryAll, Node.IsLoop, Node.Whole]
  refine ⟨hp, (evaluates_of_loopFree "f()" hp fun c hc => ?_).2 fun c hc => ?_⟩
  · rw [Store.reachesFrom_callsItself hc]
    exact hf.1
  · rw [Store.reachesFrom_callsItself hc]
    exact hf.2

end Incognita
