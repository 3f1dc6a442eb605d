import Incognita.Eval

namespace Incognita

/-!
# Eval — evaluations one step at a time

The evaluations call each other, so a fact about one of them is a fact about all of them.  A
`Job` is any of the eight, which lets one induction on the bound speak of all of them at once.

* `Outcome.Sat` — what an evaluation gives satisfies a predicate;
* `Outcome.Rel` — two evaluations end alike, and what they give is related;
* `Eval.Job`, `Eval.Job.run` — an evaluation, and what it gives under a bound;
* `Eval.Job.run_mono` — an evaluation that ends gives the same under any larger bound.
-/

/-! ### Outcomes -/

namespace Outcome

variable {α β γ δ : Type}

/-- What an evaluation gives satisfies `Q`.  Whether it may meet a missing part is up to
    `mayFault`. -/
def Sat (mayFault : Prop) (Q : α → Store → Prop) : Outcome α → Prop
  | .done a s => Q a s
  | .fault => mayFault
  | .outOfFuel => True

namespace Sat

variable {F : Prop} {P Q : α → Store → Prop} {R : β → Store → Prop} {o : Outcome α}

/-- `Sat` for a weaker property of what is given. -/
theorem mono (h : o.Sat F P) (hpq : ∀ a s, P a s → Q a s) : o.Sat F Q := by
  cases o with
  | done a s => exact hpq a s h
  | fault => exact h
  | outOfFuel => trivial

/-- What an evaluation gives goes on to something that satisfies `R`. -/
theorem bind {k : α → Store → Outcome β} (h : o.Sat F P) (hk : ∀ a s, P a s → (k a s).Sat F R) :
    (o.bind k).Sat F R := by
  cases o with
  | done a s => exact hk a s h
  | fault => exact h
  | outOfFuel => trivial

/-- An operand that is a signal is the result, and with any other one the evaluation goes on. -/
theorem operand {o : Outcome Result} {P Q : Result → Store → Prop}
    {k : Value → Store → Outcome Result} (h : o.Sat F P)
    (hs : ∀ r s, P r s → (r.getD .null).isSignal = true → Q (some (r.getD .null)) s)
    (hk : ∀ r s, P r s → (r.getD .null).isSignal = false → (k (r.getD .null) s).Sat F Q) :
    (o.operand k).Sat F Q := by
  refine h.bind fun r s hp => ?_
  cases hv : (r.getD .null).isSignal with
  | true =>
    simp only [hv, if_true]
    exact hs r s hp hv
  | false =>
    simp only [hv, Bool.false_eq_true, if_false]
    exact hk r s hp hv

end Sat

/-- Two evaluations end alike, with related results and stores.  Whether the first one may reach
    its bound before the second one is up to `early`. -/
def Rel (early : Prop) (R : α → Store → β → Store → Prop) : Outcome α → Outcome β → Prop
  | .done a s, .done b t => R a s b t
  | .fault, .fault => True
  | .outOfFuel, .outOfFuel => True
  | .outOfFuel, _ => early
  | _, _ => False

namespace Rel

variable {E : Prop} {P : α → Store → β → Store → Prop} {Q : γ → Store → δ → Store → Prop}

/-- An evaluation that has reached its bound is related to any other, if it may be early. -/
theorem outOfFuel {o : Outcome β} (he : E) : Rel E P (.outOfFuel : Outcome α) o := by
  cases o with
  | done b t => exact he
  | fault => exact he
  | outOfFuel => trivial

/-- Related evaluations that go on alike from related results are related as a whole. -/
theorem bind {o : Outcome α} {o' : Outcome β} {k : α → Store → Outcome γ}
    {k' : β → Store → Outcome δ} (h : Rel E P o o')
    (hk : ∀ a s b t, P a s b t → Rel E Q (k a s) (k' b t)) : Rel E Q (o.bind k) (o'.bind k') := by
  cases o with
  | done a s =>
    cases o' with
    | done b t => exact hk a s b t h
    | fault | outOfFuel => exact h.elim
  | fault =>
    cases o' with
    | fault => trivial
    | done | outOfFuel => exact h.elim
  | outOfFuel =>
    cases o' with
    | outOfFuel => trivial
    -- The second evaluation goes on, for as long as it likes.
    | done | fault => exact outOfFuel h

/-- When the first evaluation ends, so does the second one. -/
theorem exists_right {a : α} {s : Store} {o' : Outcome β} (h : Rel E P (.done a s) o') :
    ∃ b t, o' = .done b t ∧ P a s b t := by
  cases o' with
  | done b t => exact ⟨b, t, rfl, h⟩
  | fault | outOfFuel => exact h.elim

/-- When the second evaluation ends, so does the first one, unless it may reach its bound early. -/
theorem exists_left {o : Outcome α} {b : β} {t : Store} (h : Rel False P o (.done b t)) :
    ∃ a s, o = .done a s ∧ P a s b t := by
  cases o with
  | done a s => exact ⟨a, s, rfl, h⟩
  | fault | outOfFuel => exact h.elim

/-- Two operands that are both signals or both none. -/
theorem operand {o o' : Outcome Result} {P Q : Result → Store → Result → Store → Prop}
    {k k' : Value → Store → Outcome Result} (h : Rel E P o o')
    (hsig : ∀ r s r' t, P r s r' t →
      (r.getD .null).isSignal = (r'.getD .null).isSignal)
    (hs : ∀ r s r' t, P r s r' t → Q (some (r.getD .null)) s (some (r'.getD .null)) t)
    (hk : ∀ r s r' t, P r s r' t → Rel E Q (k (r.getD .null) s) (k' (r'.getD .null) t)) :
    Rel E Q (o.operand k) (o'.operand k') := by
  refine h.bind fun r s r' t hp => ?_
  simp only [← hsig r s r' t hp]
  split
  · exact hs r s r' t hp
  · exact hk r s r' t hp

end Rel

end Outcome

namespace Eval

/-! ### Jobs -/

/-- An evaluation. -/
inductive Job where
  /-- The value of an expression. -/
  | expr (e : Expr)
  /-- The truth value of an operand of `&&` or `||`. -/
  | logical (e : Expr)
  /-- The values of arguments, or the signal that one of them is. -/
  | args (es : List Expr)
  /-- A function and the values that it is called with. -/
  | call (f : Value) (vs : List Value)
  /-- A loop from its condition on. -/
  | loop (cond : Expr) (body : Block)
  /-- The statements of a block, which has to be there. -/
  | block (b : Block)
  /-- Statements, and the result if there is none. -/
  | stmts (ss : List Stmt) (last : Result)
  /-- One statement. -/
  | stmt (st : Stmt)

namespace Job

/-- What an evaluation gives. -/
abbrev Result : Job → Type
  | args _ => Except Value (List Value)
  | expr _ | logical _ | call _ _ | loop _ _ | block _ | stmts _ _ | stmt _ => Incognita.Result

/-- The evaluation under a bound. -/
def run (fuel : Nat) (ctx : Context) (s : Store) : (j : Job) → Outcome j.Result
  | expr e => Eval.expr fuel ctx e s
  | logical e => Eval.logical fuel ctx e s
  | args es => Eval.args fuel ctx es s
  | call f vs => Eval.call fuel ctx f vs s
  | loop c b => Eval.loop fuel ctx c b s
  | block b => Eval.block fuel ctx b s
  | stmts ss last => Eval.stmts fuel ctx ss last s
  | stmt st => Eval.stmt fuel ctx st s

/-- Under the bound zero no evaluation gets anywhere. -/
theorem run_zero (ctx : Context) (s : Store) (j : Job) : j.run 0 ctx s = .outOfFuel := by
  cases j <;> simp [run, Eval.expr, Eval.logical, Eval.args, Eval.call, Eval.loop, Eval.block,
    Eval.stmts, Eval.stmt]

end Job

/-! ### Evaluations, in a form without patterns -/

/-- A name, whether it is bound or not. -/
theorem expr_ident {fuel : Nat} {ctx : Context} {x : Ident} {s : Store} :
    expr (fuel + 1) ctx (.ident x) s =
      .done (some ((s.get? ctx.env.path x.name).getD (.err (.unbound x.name)))) s := by
  simp only [expr]
  cases s.get? ctx.env.path x.name <;> rfl

/-- A choice, with an alternative or without one. -/
theorem expr_choice {fuel : Nat} {ctx : Context} {t : Token} {c : Expr} {a b : Block} {s : Store} :
    expr (fuel + 1) ctx (.choice t c a b) s =
      (expr fuel ctx c s).operand fun v s =>
        if v.truthy then block fuel ctx a s
        else if b.isMissing then .done (some .null) s
        else block fuel ctx b s := by
  cases b <;> simp [expr, Block.isMissing]

/-- A return with a value. -/
theorem stmt_ret {fuel : Nat} {ctx : Context} {t : Token} {e : Expr} {s : Store}
    (he : e ≠ .missing) : stmt (fuel + 1) ctx (.ret t e) s =
      (expr fuel ctx e s).operand fun v s => .done (some (.ret v)) s := by
  cases e <;> first | exact absurd rfl he | simp only [stmt]

/-! ### A larger bound changes nothing -/

/-- The evaluations give the same result and the same store. -/
def Same {α : Type} : α → Store → α → Store → Prop := fun a s b t => a = b ∧ s = t

namespace Job

/-- Under the second bound every evaluation goes on as under the first one. -/
def Goes (fuel fuel' : Nat) : Prop :=
  ∀ (j : Job) (ctx : Context) (s : Store), (j.run fuel ctx s).Rel True Same (j.run fuel' ctx s)

/-- An evaluation that has ended gives the same under every bound. -/
theorem done_same {α : Type} (a : α) (s : Store) :
    (Outcome.done a s).Rel True Same (Outcome.done a s) := ⟨rfl, rfl⟩

/-- Evaluations that give the same go on alike. -/
theorem bind_same {α β : Type} {o o' : Outcome α} {k k' : α → Store → Outcome β}
    (h : o.Rel True Same o') (hk : ∀ a s, (k a s).Rel True Same (k' a s)) :
    (o.bind k).Rel True Same (o'.bind k') := by
  refine h.bind ?_
  rintro a s _ _ ⟨rfl, rfl⟩
  exact hk a s

/-- The same holds of operands, where only values go on. -/
theorem operand_same {o o' : Outcome Incognita.Result}
    {k k' : Value → Store → Outcome Incognita.Result} (h : o.Rel True Same o')
    (hk : ∀ v s, (k v s).Rel True Same (k' v s)) :
    (o.operand k).Rel True Same (o'.operand k') := by
  refine bind_same h fun r s => ?_
  simp only
  split
  · exact done_same _ _
  · exact hk _ _

variable {fuel fuel' : Nat} {ctx : Context} {s : Store}

/-- An expression is made of smaller evaluations, which go on alike under the two bounds. -/
theorem expr_goes (ih : Goes fuel fuel') (e : Expr) :
    (Eval.expr (fuel + 1) ctx e s).Rel True Same (Eval.expr (fuel' + 1) ctx e s) := by
  cases e with
  | missing | bool | str | fn => simp only [Eval.expr]; exact done_same _ _
  | ident x => rw [expr_ident, expr_ident]; exact done_same _ _
  | int t v => cases v <;> simp only [Eval.expr] <;> exact done_same _ _
  | unary t op e =>
    simp only [Eval.expr]
    exact operand_same (ih (.expr e) ctx s) fun v s => done_same _ _
  | binary t l op r =>
    simp only [Eval.expr]
    refine operand_same (ih (.expr l) ctx s) fun v s => ?_
    -- The operator alone decides which of the three kinds of operations it is.
    split
    · split
      · exact ih (.logical r) ctx s
      · exact done_same _ _
    · split
      · split
        · exact done_same _ _
        · exact ih (.logical r) ctx s
      · exact operand_same (ih (.expr r) ctx s) fun w s => done_same _ _
  | choice t c a b =>
    rw [expr_choice, expr_choice]
    refine operand_same (ih (.expr c) ctx s) fun v s => ?_
    split
    · exact ih (.block a) ctx s
    · split
      · exact done_same _ _
      · exact ih (.block b) ctx s
  | loop t c b => simp only [Eval.expr]; exact ih (.loop c b) ctx s
  | call t f as =>
    simp only [Eval.expr]
    refine operand_same (ih (.expr f) ctx s) fun v s => ?_
    refine bind_same (ih (.args as) ctx s) fun vs s => ?_
    cases vs with
    | ok vs => exact ih (.call v vs) ctx s
    | error signal => exact done_same _ _

/-- So are arguments. -/
theorem args_goes (ih : Goes fuel fuel') (es : List Expr) :
    (Eval.args (fuel + 1) ctx es s).Rel True Same (Eval.args (fuel' + 1) ctx es s) := by
  cases es with
  | nil => simp only [Eval.args]; exact done_same _ _
  | cons e es =>
    simp only [Eval.args]
    refine bind_same (ih (.expr e) ctx s) fun r s => ?_
    split
    · exact done_same _ _
    · exact bind_same (ih (.args es) ctx s) fun vs s => done_same _ _

/-- So is a call, whose body runs in the same scope under both bounds. -/
theorem call_goes (ih : Goes fuel fuel') (f : Value) (vs : List Value) :
    (Eval.call (fuel + 1) ctx f vs s).Rel True Same (Eval.call (fuel' + 1) ctx f vs s) := by
  cases f with
  | fn c =>
    simp only [Eval.call]
    split
    · exact done_same _ _
    · split
      · exact done_same _ _
      · cases Ident.present? c.params with
        | none => trivial
        | some names => exact bind_same (ih (.block c.body) _ _) fun r s => done_same _ _
  | _ => simp only [Eval.call]; exact done_same _ _

/-- So is a loop, which is among its own parts, under a smaller bound. -/
theorem loop_goes (ih : Goes fuel fuel') (c : Expr) (b : Block) :
    (Eval.loop (fuel + 1) ctx c b s).Rel True Same (Eval.loop (fuel' + 1) ctx c b s) := by
  simp only [Eval.loop]
  refine operand_same (ih (.expr c) ctx s) fun v s => ?_
  split
  · refine bind_same (ih (.block b) ctx s) fun r s => ?_
    split
    · exact done_same _ _
    · exact done_same _ _
    · exact done_same _ _
    · exact ih (.loop c b) ctx s
  · exact done_same _ _

/-- So is a block. -/
theorem block_goes (ih : Goes fuel fuel') (b : Block) :
    (Eval.block (fuel + 1) ctx b s).Rel True Same (Eval.block (fuel' + 1) ctx b s) := by
  cases b with
  | missing => simp only [Eval.block]; trivial
  | mk t ss => simp only [Eval.block]; exact ih (.stmts ss none) ctx s

/-- So are statements. -/
theorem stmts_goes (ih : Goes fuel fuel') (ss : List Stmt) (last : Incognita.Result) :
    (Eval.stmts (fuel + 1) ctx ss last s).Rel True Same
      (Eval.stmts (fuel' + 1) ctx ss last s) := by
  cases ss with
  | nil => simp only [Eval.stmts]; exact done_same _ _
  | cons st ss =>
    simp only [Eval.stmts]
    refine bind_same (ih (.stmt st) ctx s) fun r s => ?_
    split
    · exact done_same _ _
    · exact ih (.stmts ss r) ctx s

/-- So is a statement. -/
theorem stmt_goes (ih : Goes fuel fuel') (st : Stmt) :
    (Eval.stmt (fuel + 1) ctx st s).Rel True Same (Eval.stmt (fuel' + 1) ctx st s) := by
  cases st with
  | missing | brk => simp only [Eval.stmt]; exact done_same _ _
  | bind t x e =>
    simp only [Eval.stmt]
    refine operand_same (ih (.expr e) ctx s) fun v s => ?_
    cases x with
    | none => trivial
    | some x => exact done_same _ _
  | ret t e =>
    by_cases he : e = .missing
    · simp only [he, Eval.stmt]
      exact done_same _ _
    · rw [stmt_ret he, stmt_ret he]
      exact operand_same (ih (.expr e) ctx s) fun v s => done_same _ _
  | expr t e => simp only [Eval.stmt]; exact ih (.expr e) ctx s
  | block b => simp only [Eval.stmt]; exact ih (.block b) ctx s

/-- One step of the two bounds, for all evaluations at once. -/
theorem goes_succ (ih : Goes fuel fuel') : Goes (fuel + 1) (fuel' + 1) := by
  intro j ctx s
  cases j with
  | expr e => exact expr_goes ih e
  | logical e =>
    simp only [run, Eval.logical]
    exact operand_same (ih (.expr e) ctx s) fun v s => done_same _ _
  | args es => exact args_goes ih es
  | call f vs => exact call_goes ih f vs
  | loop c b => exact loop_goes ih c b
  | block b => exact block_goes ih b
  | stmts ss last => exact stmts_goes ih ss last
  | stmt st => exact stmt_goes ih st

/-- A larger bound lets every evaluation go on as it does under a smaller one: by induction on that
    one, as under the bound zero there is nothing to go on with. -/
theorem goes_add (fuel more : Nat) : Goes fuel (fuel + more) := by
  induction fuel with
  | zero =>
    intro j ctx s
    rw [run_zero]
    exact .outOfFuel trivial
  | succ fuel ih =>
    rw [Nat.succ_add]
    exact goes_succ ih

/-- **An evaluation that ends gives the same under any larger bound.**  More bound only lets
    evaluations go on that would have been cut off. -/
theorem run_mono {j : Job} {r : j.Result} {t : Store} (hle : fuel ≤ fuel')
    (h : j.run fuel ctx s = .done r t) : j.run fuel' ctx s = .done r t := by
  -- Reaching the bound is the only way in which the smaller one may differ.
  obtain ⟨more, rfl⟩ := Nat.exists_eq_add_of_le hle
  have hg := goes_add fuel more j ctx s
  rw [h] at hg
  obtain ⟨r', t', hr, rfl, rfl⟩ := hg.exists_right
  exact hr

/-- **An evaluation has one result**, whatever the bounds it ends under.  This is what makes
    `Job.outcome` well defined. -/
theorem run_unique {j : Job} {r r' : j.Result} {t t' : Store} (h : j.run fuel ctx s = .done r t)
    (h' : j.run fuel' ctx s = .done r' t') : r = r' ∧ t = t' := by
  -- Both evaluations are the one under the larger bound.
  have hm := run_mono (Nat.le_max_left fuel fuel') h
  have hm' := run_mono (Nat.le_max_right fuel fuel') h'
  rw [hm, Outcome.done.injEq] at hm'
  exact hm'

end Job

end Eval

end Incognita
