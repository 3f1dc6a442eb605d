import Incognita.Proofs.Evaluations

namespace Incognita

/-!
# Eval — evaluations without a bound

What an evaluation gives does not depend on the bound once the bound is large enough, so the bound
can be left out of the picture.  What is left is one outcome for each evaluation, which is
`Outcome.outOfFuel` when it never ends, and the outcome of a tree is put together from those of its
parts.  That two trees have the same effect is then an equation between outcomes.

* `Outcome.ComesTo` — what evaluations under larger and larger bounds come to;
* `Eval.Job.outcome` — what an evaluation comes to, with one equation for each kind of tree;
* `Node.SameEffect` — two trees end together, and they end alike;
* `Node.sameEffect_expr` — which they do when they come to the same.
-/

namespace Outcome

variable {α β : Type}

/-! ### Results and operands -/

theorem bind_done {o : Outcome α} : o.bind (fun a s => .done a s) = o := by
  cases o <;> rfl

section

variable {o : Outcome Result} {r : Result} {s t : Store} {k k' : Value → Store → Outcome Result}

/-- An operand that is a signal is the result. -/
theorem operand_of_isSignal (h : (r.getD .null).isSignal = true) :
    (done r s).operand k = .done (some (r.getD .null)) s := by
  simp only [operand, bind, h, if_true]

/-- The value of any other operand goes on, a missing one as null. -/
theorem operand_of_not_isSignal (h : (r.getD .null).isSignal = false) :
    (done r s).operand k = k (r.getD .null) s := by
  simp only [operand, bind, h, Bool.false_eq_true, if_false]

/-- How an evaluation with an operand can end. -/
theorem operand_eq_done (h : o.operand k = .done r t) :
    (∃ v, o = .done (some v) t ∧ v.isSignal = true ∧ r = some v) ∨
      ∃ r' s, o = .done r' s ∧ (r'.getD .null).isSignal = false ∧
        k (r'.getD .null) s = .done r t := by
  cases o with
  | fault | outOfFuel => exact absurd h (by simp [operand, bind])
  | done r' s =>
    cases hsignal : (r'.getD .null).isSignal with
    | false =>
      rw [operand_of_not_isSignal hsignal] at h
      exact .inr ⟨r', s, rfl, hsignal, h⟩
    | true =>
      rw [operand_of_isSignal hsignal, done.injEq] at h
      obtain ⟨rfl, rfl⟩ := h
      cases r' with
      | none => exact absurd hsignal (by decide)
      | some v => exact .inl ⟨v, rfl, hsignal, rfl⟩

/-- Evaluations go on alike when they do with every value that their operand can have. -/
theorem operand_congr_done
    (h : ∀ r s, o = .done r s → (r.getD .null).isSignal = false →
      k (r.getD .null) s = k' (r.getD .null) s) : o.operand k = o.operand k' := by
  cases o with
  | fault | outOfFuel => rfl
  | done r s =>
    cases hsignal : (r.getD .null).isSignal with
    | true => rw [operand_of_isSignal hsignal, operand_of_isSignal hsignal]
    | false =>
      rw [operand_of_not_isSignal hsignal, operand_of_not_isSignal hsignal]
      exact h r s rfl hsignal

end

/-- Only the end that an evaluation comes to matters to what goes on from it. -/
theorem bind_congr_done {o : Outcome α} {k k' : α → Store → Outcome β}
    (h : ∀ a s, o = .done a s → k a s = k' a s) : o.bind k = o.bind k' := by
  cases o with
  | fault | outOfFuel => rfl
  | done a s => exact h a s rfl

/-- What has ended as a whole has ended in both parts. -/
theorem bind_eq_done {o : Outcome α} {k : α → Store → Outcome β} {b : β} {t : Store}
    (h : o.bind k = .done b t) : ∃ a s, o = .done a s ∧ k a s = .done b t := by
  cases o with
  | fault | outOfFuel => exact absurd h (by simp [bind])
  | done a s => exact ⟨a, s, rfl, h⟩

/-! ### Larger and larger bounds -/

/-- Under every bound the evaluation gives `v` or reaches the bound, and under every bound from some
    one on it gives `v`. -/
def ComesTo (o : Nat → Outcome α) (v : Outcome α) : Prop :=
  (∀ n, o n = .outOfFuel ∨ o n = v) ∧ ∃ n, ∀ m, n ≤ m → o m = v

/-- An evaluation that goes on under a larger bound as under a smaller one comes to something. -/
theorem exists_comesTo {o : Nat → Outcome α}
    (h : ∀ n m, n ≤ m → o n ≠ .outOfFuel → o m = o n) : ∃ v, ComesTo o v := by
  by_cases hend : ∃ n, o n ≠ .outOfFuel
  · obtain ⟨n, hn⟩ := hend
    refine ⟨o n, fun m => ?_, n, fun m hm => h n m hm hn⟩
    by_cases hm : o m = .outOfFuel
    · exact .inl hm
    · -- Two bounds that are not reached give what the larger one gives.
      have hleft := h n (max n m) (Nat.le_max_left n m) hn
      have hright := h m (max n m) (Nat.le_max_right n m) hm
      exact .inr (hright.symm.trans hleft)
  · have hall : ∀ n, o n = .outOfFuel := by
      intro n
      apply Classical.byContradiction
      intro hn
      exact hend ⟨n, hn⟩
    exact ⟨.outOfFuel, fun n => .inl (hall n), 0, fun m _ => hall m⟩

namespace ComesTo

variable {o o' : Nat → Outcome α} {v w : Outcome α}

/-- A sequence of outcomes comes to one outcome at most. -/
theorem unique (h : ComesTo o v) (h' : ComesTo o w) : v = w := by
  obtain ⟨n, hn⟩ := h.2
  obtain ⟨n', hn'⟩ := h'.2
  have hv := hn (max n n') (Nat.le_max_left n n')
  have hw := hn' (max n n') (Nat.le_max_right n n')
  exact hv.symm.trans hw

/-- What an evaluation comes to is what it gives under some bound. -/
theorem eq_iff (h : ComesTo o v) (hw : w ≠ .outOfFuel) : v = w ↔ ∃ n, o n = w := by
  constructor
  · rintro rfl
    obtain ⟨n, hn⟩ := h.2
    exact ⟨n, hn n (Nat.le_refl n)⟩
  · rintro ⟨n, hn⟩
    rcases h.1 n with hout | hv
    · exact absurd (hn.symm.trans hout) hw
    · exact hv.symm.trans hn

theorem const (v : Outcome α) : ComesTo (fun _ => v) v :=
  ⟨fun _ => .inr rfl, 0, fun _ _ => rfl⟩

/-- The first step takes one of the bound. -/
theorem of_succ (hzero : o 0 = .outOfFuel) (h : ComesTo (fun n => o (n + 1)) v) : ComesTo o v := by
  obtain ⟨hall, n, hn⟩ := h
  constructor
  · intro m
    cases m with
    | zero => exact .inl hzero
    | succ m => exact hall m
  · refine ⟨n + 1, fun m hm => ?_⟩
    obtain ⟨m, rfl⟩ : ∃ m', m = m' + 1 := ⟨m - 1, by omega⟩
    exact hn m (by omega)

/-- A condition that does not depend on the bound. -/
theorem ite {c : Prop} [Decidable c] (h : ComesTo o v) (h' : ComesTo o' w) :
    ComesTo (fun n => if c then o n else o' n) (if c then v else w) := by
  by_cases hc : c
  · simpa only [if_pos hc] using h
  · simpa only [if_neg hc] using h'

/-- What comes after an evaluation is what comes after what it comes to. -/
theorem bind {k : Nat → α → Store → Outcome β} {k' : α → Store → Outcome β} (h : ComesTo o v)
    (hk : ∀ a s, ComesTo (fun n => k n a s) (k' a s)) :
    ComesTo (fun n => (o n).bind (k n)) (v.bind k') := by
  obtain ⟨hall, n, hn⟩ := h
  have hbind : ∀ {m x}, o m = x → (o m).bind (k m) = x.bind (k m) := fun hx => by rw [hx]
  cases v with
  | outOfFuel =>
    -- Without an end of the first part there is none of the whole, whatever the bound.
    have hout : ∀ m, o m = .outOfFuel := fun m => (hall m).elim id id
    exact ⟨fun m => .inl (hbind (hout m)), 0, fun m _ => hbind (hout m)⟩
  | fault =>
    exact ⟨fun m => (hall m).imp hbind hbind, n, fun m hm => hbind (hn m hm)⟩
  | done a s =>
    obtain ⟨hall', n', hn'⟩ := hk a s
    constructor
    · intro m
      rcases hall m with hm | hm
      · exact .inl (hbind hm)
      · exact (hall' m).imp (hbind hm).trans (hbind hm).trans
    -- Beyond both bounds the first part has ended, and what goes on from it as well.
    · refine ⟨max n n', fun m hm => ?_⟩
      have hfirst := hbind (hn m (Nat.le_trans (Nat.le_max_left n n') hm))
      have hthen := hn' m (Nat.le_trans (Nat.le_max_right n n') hm)
      exact hfirst.trans hthen

/-- The same for an operand. -/
theorem operand {o : Nat → Outcome Result} {v : Outcome Result}
    {k : Nat → Value → Store → Outcome Result} {k' : Value → Store → Outcome Result}
    (h : ComesTo o v) (hk : ∀ w s, ComesTo (fun n => k n w s) (k' w s)) :
    ComesTo (fun n => (o n).operand (k n)) (v.operand k') :=
  h.bind fun r s => (const (.done (some (r.getD .null)) s)).ite (hk (r.getD .null) s)

end ComesTo

end Outcome

namespace Eval

open Outcome (ComesTo)

/-! ### What evaluations come to -/

/-- Every evaluation comes to something as the bound grows: to an end that it keeps, or to none. -/
theorem Job.exists_comesTo (j : Job) (ctx : Context) (s : Store) :
    ∃ v, ComesTo (fun n => j.run n ctx s) v := by
  refine Outcome.exists_comesTo fun n m hnm hn => ?_
  obtain ⟨more, rfl⟩ := Nat.exists_eq_add_of_le hnm
  have hgoes := Job.goes_add n more j ctx s
  cases ho : j.run n ctx s with
  | outOfFuel => exact absurd ho hn
  | done r t => exact Job.run_mono hnm ho
  | fault =>
    rw [ho] at hgoes
    cases ho' : j.run (n + more) ctx s with
    | fault => rfl
    | done | outOfFuel => rw [ho'] at hgoes; exact hgoes.elim

/-- What an evaluation comes to when no bound is set, which is `Outcome.outOfFuel` when it never
    ends. -/
noncomputable def Job.outcome (j : Job) (ctx : Context) (s : Store) : Outcome j.Result :=
  (j.exists_comesTo ctx s).choose

/-- That is what `Job.outcome` is. -/
theorem Job.comesTo_outcome (j : Job) (ctx : Context) (s : Store) :
    ComesTo (fun n => j.run n ctx s) (j.outcome ctx s) :=
  (j.exists_comesTo ctx s).choose_spec

/-- Since every evaluation takes one of the bound, it comes to what it does under the next one. -/
theorem Job.outcome_eq {j : Job} {ctx : Context} {s : Store} {v : Outcome j.Result}
    (h : ComesTo (fun n => j.run (n + 1) ctx s) v) : j.outcome ctx s = v :=
  (j.comesTo_outcome ctx s).unique (h.of_succ (Job.run_zero ctx s j))

section

variable {ctx : Context} {s : Store} {t : Token}

/-- A literal comes to its value. -/
theorem outcome_int {n : Int64} :
    (Job.expr (.int t (some n))).outcome ctx s = .done (some (.int n)) s := by
  refine Job.outcome_eq ?_
  simp only [Job.run, expr]
  exact .const _

/-- So does a truth value. -/
theorem outcome_bool {b : Bool} :
    (Job.expr (.bool t b)).outcome ctx s = .done (some (.bool b)) s := by
  refine Job.outcome_eq ?_
  simp only [Job.run, expr]
  exact .const _

/-- An operator is applied to the value of its operand, and a signal goes past it. -/
theorem outcome_unary {op : String} {e : Expr} :
    (Job.expr (.unary t op e)).outcome ctx s =
      ((Job.expr e).outcome ctx s).operand fun v s => .done (some (v.unary op)) s := by
  refine Job.outcome_eq ?_
  simp only [Job.run, expr]
  exact ((Job.expr e).comesTo_outcome ctx s).operand fun v s => .const _

/-- The right operand of a logical operator comes to the boolean that it is taken for. -/
theorem outcome_logical {e : Expr} :
    (Job.logical e).outcome ctx s =
      ((Job.expr e).outcome ctx s).operand fun v s => .done (some (.bool v.truthy)) s := by
  refine Job.outcome_eq ?_
  simp only [Job.run, logical]
  exact ((Job.expr e).comesTo_outcome ctx s).operand fun v s => .const _

/-- An operation of either kind, where the logical operators may leave out their right operand. -/
theorem outcome_binary {l r : Expr} {op : String} :
    (Job.expr (.binary t l op r)).outcome ctx s =
      ((Job.expr l).outcome ctx s).operand fun v s =>
        if op = "&&" then
          if v.truthy then (Job.logical r).outcome ctx s else .done (some (.bool false)) s
        else if op = "||" then
          if v.truthy then .done (some (.bool true)) s else (Job.logical r).outcome ctx s
        else ((Job.expr r).outcome ctx s).operand fun w s =>
          .done (some (Value.binary op v w)) s := by
  refine Job.outcome_eq ?_
  simp only [Job.run, expr]
  refine ((Job.expr l).comesTo_outcome ctx s).operand fun v s => ?_
  have hlogical := (Job.logical r).comesTo_outcome ctx s
  have hright := (Job.expr r).comesTo_outcome ctx s
  refine .ite (.ite hlogical (.const _)) (.ite (.ite (.const _) hlogical) ?_)
  exact hright.operand fun w s => .const _

/-- A condition chooses the block that is run, or null where there is none. -/
theorem outcome_choice {c : Expr} {a b : Block} :
    (Job.expr (.choice t c a b)).outcome ctx s =
      ((Job.expr c).outcome ctx s).operand fun v s =>
        if v.truthy then (Job.block a).outcome ctx s
        else if b.isMissing then .done (some .null) s
        else (Job.block b).outcome ctx s := by
  refine Job.outcome_eq ?_
  simp only [Job.run, expr_choice]
  refine ((Job.expr c).comesTo_outcome ctx s).operand fun v s => ?_
  have ha := (Job.block a).comesTo_outcome ctx s
  have hb := (Job.block b).comesTo_outcome ctx s
  exact ha.ite (.ite (.const _) hb)

/-- A loop as an expression is the loop. -/
theorem outcome_exprLoop {c : Expr} {b : Block} :
    (Job.expr (.loop t c b)).outcome ctx s = (Job.loop c b).outcome ctx s := by
  refine Job.outcome_eq ?_
  simp only [Job.run, expr]
  exact (Job.loop c b).comesTo_outcome ctx s

/-- How a loop goes on when its body has ended with a result: a signal ends it, and with any other
    result the `next` round comes. -/
def afterRound (next : Store → Outcome Result) (r : Result) (s : Store) : Outcome Result :=
  match r with
  | some .brk => .done (some .null) s
  | some (.ret v) => .done (some (.ret v)) s
  | some (.err e) => .done (some (.err e)) s
  | _ => next s

/-- A loop under a bound goes through one round, and then it is over or goes on. -/
theorem loop_succ {fuel : Nat} {c : Expr} {b : Block} :
    loop (fuel + 1) ctx c b s =
      (expr fuel ctx c s).operand fun v s =>
        if v.truthy then (block fuel ctx b s).bind (afterRound (loop fuel ctx c b))
        else .done (some .null) s := by
  rw [loop]
  refine congrArg _ (funext fun v => funext fun s => ?_)
  refine ite_congr rfl (fun _ => congrArg _ (funext fun r => ?_)) fun _ => rfl
  cases r with
  | none => rfl
  | some v => cases v <;> rfl

/-- The same without a bound. -/
theorem outcome_loop {c : Expr} {b : Block} :
    (Job.loop c b).outcome ctx s =
      ((Job.expr c).outcome ctx s).operand fun v s =>
        if v.truthy then
          ((Job.block b).outcome ctx s).bind (afterRound ((Job.loop c b).outcome ctx))
        else .done (some .null) s := by
  refine Job.outcome_eq ?_
  simp only [Job.run, loop_succ]
  refine ((Job.expr c).comesTo_outcome ctx s).operand fun v s => ?_
  refine .ite (.bind ((Job.block b).comesTo_outcome ctx s) fun r s => ?_) (.const _)
  have hnext := (Job.loop c b).comesTo_outcome ctx s
  cases r with
  | none => exact hnext
  | some v => cases v <;> first | exact .const _ | exact hnext

/-- A block is its statements. -/
theorem outcome_block {ss : List Stmt} :
    (Job.block (.mk t ss)).outcome ctx s = (Job.stmts ss none).outcome ctx s := by
  refine Job.outcome_eq ?_
  simp only [Job.run, block]
  exact (Job.stmts ss none).comesTo_outcome ctx s

/-- Without statements the result so far stays. -/
theorem outcome_stmts_nil {last : Result} :
    (Job.stmts [] last).outcome ctx s = .done last s := by
  refine Job.outcome_eq ?_
  simp only [Job.run, stmts]
  exact .const _

/-- A statement is run, and the others behind it unless it came to a signal. -/
theorem outcome_stmts_cons {st : Stmt} {ss : List Stmt} {last : Result} :
    (Job.stmts (st :: ss) last).outcome ctx s =
      ((Job.stmt st).outcome ctx s).bind fun r s =>
        if Result.isSignal r then .done r s else (Job.stmts ss r).outcome ctx s := by
  refine Job.outcome_eq ?_
  simp only [Job.run, stmts]
  refine .bind ((Job.stmt st).comesTo_outcome ctx s) fun r s => ?_
  exact .ite (.const _) ((Job.stmts ss r).comesTo_outcome ctx s)

/-- An expression statement is its expression. -/
theorem outcome_exprStmt {e : Expr} :
    (Job.stmt (.expr t e)).outcome ctx s = (Job.expr e).outcome ctx s := by
  refine Job.outcome_eq ?_
  simp only [Job.run, stmt]
  exact (Job.expr e).comesTo_outcome ctx s

/-- A block that is a statement is the block. -/
theorem outcome_blockStmt {b : Block} :
    (Job.stmt (.block b)).outcome ctx s = (Job.block b).outcome ctx s := by
  refine Job.outcome_eq ?_
  simp only [Job.run, stmt]
  exact (Job.block b).comesTo_outcome ctx s

end

end Eval

namespace Node

open Eval (Job)

variable {ctx : Context} {s t : Store} {r : Result}

/-- An expression evaluates to what its `Job.outcome` ends with. -/
theorem evaluates_expr_iff {e : Expr} :
    (Node.expr e).Evaluates ctx s r t ↔ (Job.expr e).outcome ctx s = .done r t :=
  (((Job.expr e).comesTo_outcome ctx s).eq_iff (by simp)).symm

/-- So does a statement. -/
theorem evaluates_stmt_iff {st : Stmt} :
    (Node.stmt st).Evaluates ctx s r t ↔ (Job.stmt st).outcome ctx s = .done r t :=
  (((Job.stmt st).comesTo_outcome ctx s).eq_iff (by simp)).symm

/-! ### Trees with the same effect -/

/-- From the given state on the two trees end together, with the same result, the same scopes and
    the same calls noted down, or both come to a part that is missing. -/
def SameEffect (ctx : Context) (s : Store) (m n : Node) : Prop :=
  ∀ o, o ≠ .outOfFuel →
    ((∃ fuel, m.evalWithin fuel ctx s = o) ↔ ∃ fuel, n.evalWithin fuel ctx s = o)

/-- Expressions that come to the same have the same effect. -/
theorem sameEffect_expr {e e' : Expr}
    (h : (Job.expr e).outcome ctx s = (Job.expr e').outcome ctx s) :
    SameEffect ctx s (.expr e) (.expr e') := by
  intro o ho
  have hleft := ((Job.expr e).comesTo_outcome ctx s).eq_iff ho
  have hright := ((Job.expr e').comesTo_outcome ctx s).eq_iff ho
  rw [h] at hleft
  exact hleft.symm.trans hright

end Node

end Incognita
