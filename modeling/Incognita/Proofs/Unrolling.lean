import Incognita.Proofs.Outcomes
import Incognita.Proofs.Spacing

namespace Incognita

/-!
# Eval — loops round by round

A loop goes through rounds, in each of which its condition holds and its body runs to the end, until
a last one ends it.  Neither blocks nor loops open a scope, so the first round can be taken out of a
loop and put in front of it, under a choice.  Only a break tells the two apart: it ends the loop
that it stands in, and the choice has none.

* `Expr.Holds` — a condition counts as true;
* `Eval.Round`, `Eval.Rounds` — rounds after which a loop goes on;
* `Eval.LastRound` — a round that ends a loop, and the result that the loop gets;
* `Node.evaluates_loop_iff` — a loop is some rounds and a last one;
* `Expr.unrolled` — a loop with its first round in front of it;
* `loop_unrolls` — which has the same effect, and what loops result in.
-/

/-- In the store `s` the condition counts as true, and its evaluation leaves the store `t`. -/
def Expr.Holds (ctx : Context) (c : Expr) (s t : Store) : Prop :=
  ∃ r, (Node.expr c).Evaluates ctx s r t ∧ (r.getD .null).isSignal = false ∧
    (r.getD .null).truthy = true

/-- There are three signals. -/
theorem Value.eq_of_isSignal {v : Value} (h : v.isSignal = true) :
    v = .brk ∨ (∃ e, v = .err e) ∨ ∃ w, v = .ret w := by
  cases v with
  | brk => exact .inl rfl
  | err e => exact .inr (.inl ⟨e, rfl⟩)
  | ret w => exact .inr (.inr ⟨w, rfl⟩)
  | int | bool | str | null | fn => exact absurd h (by simp [isSignal])

namespace Eval

section

variable (ctx : Context) (c : Expr) (b : Block)

/-- The condition holds and the body runs to its end, so that the loop goes on. -/
def Round (s t : Store) : Prop :=
  ∃ s' r, c.Holds ctx s s' ∧ (Node.stmt (.block b)).Evaluates ctx s' r t ∧
    Result.isSignal r = false

/-- Any number of rounds, none of which ends the loop. -/
inductive Rounds : Store → Store → Prop
  /-- The loop may end in its first round. -/
  | none (s : Store) : Rounds s s
  | next {s s' t : Store} (h : Round ctx c b s s') (hs : Rounds s' t) : Rounds s t

/-- The round that ends the loop, with the result of the loop. -/
inductive LastRound : Store → Result → Store → Prop
  /-- The condition is a signal, which is the result. -/
  | signal {s t : Store} {v : Value} (hc : (Node.expr c).Evaluates ctx s (some v) t)
      (hv : v.isSignal = true) : LastRound s (some v) t
  /-- The condition does not hold. -/
  | ended {s t : Store} {r : Result} (hc : (Node.expr c).Evaluates ctx s r t)
      (hsignal : (r.getD .null).isSignal = false) (hr : (r.getD .null).truthy = false) :
      LastRound s (some .null) t
  /-- The body leaves the loop. -/
  | left {s s' t : Store} (hc : c.Holds ctx s s')
      (hb : (Node.stmt (.block b)).Evaluates ctx s' (some .brk) t) : LastRound s (some .null) t
  /-- The body leaves the function around the loop. -/
  | returned {s s' t : Store} {v : Value} (hc : c.Holds ctx s s')
      (hb : (Node.stmt (.block b)).Evaluates ctx s' (some (.ret v)) t) :
      LastRound s (some (.ret v)) t
  /-- The body fails. -/
  | failed {s s' t : Store} {e : RuntimeError} (hc : c.Holds ctx s s')
      (hb : (Node.stmt (.block b)).Evaluates ctx s' (some (.err e)) t) :
      LastRound s (some (.err e)) t

end

variable {ctx : Context} {c : Expr} {b : Block} {s s' s'' t : Store} {r : Result}

/-! ### Rounds and their outcomes -/

/-- A block as a statement evaluates as the job of the block does. -/
theorem evaluates_block_iff :
    (Node.stmt (.block b)).Evaluates ctx s r t ↔ (Job.block b).outcome ctx s = .done r t := by
  rw [Node.evaluates_stmt_iff, outcome_blockStmt]

/-- A loop hands on what its body ends with like a list of statements does, a break apart. -/
theorem afterRound_of_ne_brk {next : Store → Outcome Result} (h : r ≠ some .brk) :
    afterRound next r s = if Result.isSignal r then .done r s else next s := by
  cases r with
  | none => rfl
  | some v => cases v <;> first | exact absurd rfl h | rfl

/-- How a loop goes on when its condition holds. -/
theorem outcome_loop_of_holds (h : c.Holds ctx s s') :
    (Job.loop c b).outcome ctx s =
      ((Job.block b).outcome ctx s').bind (afterRound ((Job.loop c b).outcome ctx)) := by
  obtain ⟨r, hc, hsignal, htruthy⟩ := h
  rw [Node.evaluates_expr_iff] at hc
  rw [outcome_loop, hc, Outcome.operand_of_not_isSignal hsignal, if_pos htruthy]

/-- A loop goes on from where a round of it ends. -/
theorem outcome_loop_of_round (h : Round ctx c b s s') :
    (Job.loop c b).outcome ctx s = (Job.loop c b).outcome ctx s' := by
  obtain ⟨s₁, r, hc, hb, hr⟩ := h
  rw [evaluates_block_iff] at hb
  have hne : r ≠ some .brk := by
    rintro rfl
    exact absurd hr (by decide)
  rw [outcome_loop_of_holds hc, hb]
  show afterRound _ r s' = _
  rw [afterRound_of_ne_brk hne, hr]
  rfl

/-- The last round decides what a loop gives. -/
theorem outcome_loop_of_lastRound (h : LastRound ctx c b s r t) :
    (Job.loop c b).outcome ctx s = .done r t := by
  cases h with
  | signal hc hv =>
    rw [Node.evaluates_expr_iff] at hc
    rw [outcome_loop, hc]
    exact Outcome.operand_of_isSignal hv
  | ended hc hsignal hr =>
    rw [Node.evaluates_expr_iff] at hc
    rw [outcome_loop, hc, Outcome.operand_of_not_isSignal hsignal, hr]
    rfl
  | left hc hb | returned hc hb | failed hc hb =>
    rw [evaluates_block_iff] at hb
    rw [outcome_loop_of_holds hc, hb]
    rfl

/-- What a loop results in.  A break is its result only when the condition is one, since those of
    the body end at the loop. -/
theorem LastRound.result (h : LastRound ctx c b s r t) :
    r = some .null ∨ (∃ e, r = some (.err e)) ∨ (∃ v, r = some (.ret v)) ∨
      r = some .brk ∧ (Node.expr c).Evaluates ctx s (some .brk) t := by
  cases h with
  | ended | left => exact .inl rfl
  | failed => exact .inr (.inl ⟨_, rfl⟩)
  | returned => exact .inr (.inr (.inl ⟨_, rfl⟩))
  | signal hc hv =>
    rcases Value.eq_of_isSignal hv with rfl | ⟨e, rfl⟩ | ⟨v, rfl⟩
    · exact .inr (.inr (.inr ⟨rfl, hc⟩))
    · exact .inr (.inl ⟨e, rfl⟩)
    · exact .inr (.inr (.inl ⟨v, rfl⟩))

/-- How a loop can end behind its body, or that it goes on. -/
theorem afterRound_eq_done {next : Store → Outcome Result} {rb : Result}
    (hc : c.Holds ctx s s') (hb : (Node.stmt (.block b)).Evaluates ctx s' rb s'')
    (h : afterRound next rb s'' = .done r t) :
    LastRound ctx c b s r t ∨ Result.isSignal rb = false ∧ next s'' = .done r t := by
  -- A break ends the loop, but unlike any other signal it is not handed on.
  by_cases hbrk : rb = some .brk
  · subst hbrk
    obtain ⟨rfl, rfl⟩ : some Value.null = r ∧ s'' = t := by simpa [afterRound] using h
    exact .inl (.left hc hb)
  · rw [afterRound_of_ne_brk hbrk] at h
    split at h
    · next hsignal =>
      obtain ⟨rfl, rfl⟩ : rb = r ∧ s'' = t := by simpa using h
      cases rb with
      | none => exact absurd hsignal (by decide)
      | some v =>
        rcases Value.eq_of_isSignal hsignal with rfl | ⟨e, rfl⟩ | ⟨w, rfl⟩
        · exact absurd rfl hbrk
        · exact .inl (.failed hc hb)
        · exact .inl (.returned hc hb)
    · next hsignal => exact .inr ⟨by simpa using hsignal, h⟩

/-- **A round ends the loop or leads to the next one.**  The bound goes down with the loop, so an
    induction on it takes a loop apart into rounds. -/
theorem round_or_lastRound {fuel : Nat} (h : loop (fuel + 1) ctx c b s = .done r t) :
    LastRound ctx c b s r t ∨ ∃ s', Round ctx c b s s' ∧ loop fuel ctx c b s' = .done r t := by
  -- By the result of the condition, and then by that of the body.
  rw [loop_succ] at h
  rcases Outcome.operand_eq_done h with ⟨v, hc, hv, rfl⟩ | ⟨rc, s₁, hc, hsignal, h⟩
  · exact .inl (.signal ⟨fuel, hc⟩ hv)
  · have hcond : (Node.expr c).Evaluates ctx s rc s₁ := ⟨fuel, hc⟩
    cases htruthy : (rc.getD .null).truthy with
    | false =>
      rw [htruthy] at h
      obtain ⟨rfl, rfl⟩ : some Value.null = r ∧ s₁ = t := by simpa using h
      exact .inl (.ended hcond hsignal htruthy)
    | true =>
      have hholds : c.Holds ctx s s₁ := ⟨rc, hcond, hsignal, htruthy⟩
      rw [if_pos htruthy] at h
      obtain ⟨rb, s₂, hb, h⟩ := Outcome.bind_eq_done h
      have hbody : (Node.stmt (.block b)).Evaluates ctx s₁ rb s₂ :=
        ⟨fuel + 1, by rw [Node.evalWithin, stmt, hb]⟩
      rcases afterRound_eq_done hholds hbody h with hlast | ⟨hr, hrest⟩
      · exact .inl hlast
      · exact .inr ⟨s₂, ⟨s₁, rb, hholds, hbody, hr⟩, hrest⟩

/-- A loop that ends has gone through some rounds and a last one. -/
theorem rounds_of_loop {fuel : Nat} (h : loop fuel ctx c b s = .done r t) :
    ∃ s', Rounds ctx c b s s' ∧ LastRound ctx c b s' r t := by
  induction fuel generalizing s with
  | zero =>
    rw [loop] at h
    exact absurd h (by simp)
  | succ fuel ih =>
    rcases round_or_lastRound h with hlast | ⟨s', hround, hrest⟩
    · exact ⟨s, .none s, hlast⟩
    · obtain ⟨s'', hrounds, hlast⟩ := ih hrest
      exact ⟨s'', .next hround hrounds, hlast⟩

end Eval

open Eval

variable {ctx : Context} {c : Expr} {b : Block} {s t : Store} {r : Result}

/-- **A loop is some rounds and a last one.**  It says what a loop does without naming a bound. -/
theorem Node.evaluates_loop_iff {tk : Token} :
    (Node.expr (.loop tk c b)).Evaluates ctx s r t ↔
      ∃ s', Rounds ctx c b s s' ∧ LastRound ctx c b s' r t := by
  rw [Node.evaluates_expr_iff, outcome_exprLoop]
  constructor
  · intro h
    obtain ⟨fuel, hf⟩ := (((Job.loop c b).comesTo_outcome ctx s).eq_iff (by simp)).1 h
    exact rounds_of_loop hf
  · rintro ⟨s', hrounds, hlast⟩
    induction hrounds with
    | none s => exact outcome_loop_of_lastRound hlast
    | next hround _ ih => rw [outcome_loop_of_round hround, ih hlast]

/-! ### The first round in front of the loop -/

/-- The loop over a block, where `tok` gives the token for each kind. -/
def Expr.repeated (tok : Token.Kind → Token) (c : Expr) (ss : List Stmt) : Expr :=
  .loop (tok .kwWhile) c (.mk (tok .lbrace) ss)

/-- The loop with its first round in front of it: if the condition holds, the statements of the
    block and then the loop. -/
def Expr.unrolled (tok : Token.Kind → Token) (c : Expr) (ss : List Stmt) : Expr :=
  .choice (tok .kwIf) c (.mk (tok .lbrace) (ss ++ [.expr (tok .kwWhile) (.repeated tok c ss)]))
    .missing

namespace Eval

/-- Statements behind others are run unless those end with a signal. -/
theorem outcome_stmts_append {ss ss' : List Stmt} {last : Result}
    (hlast : Result.isSignal last = false) :
    (Job.stmts (ss ++ ss') last).outcome ctx s =
      ((Job.stmts ss last).outcome ctx s).bind fun r s =>
        if Result.isSignal r then .done r s else (Job.stmts ss' r).outcome ctx s := by
  induction ss generalizing last s with
  | nil =>
    rw [outcome_stmts_nil, List.nil_append]
    simp only [Outcome.bind, hlast, Bool.false_eq_true, if_false]
  | cons st ss ih =>
    rw [List.cons_append, outcome_stmts_cons, outcome_stmts_cons]
    cases (Job.stmt st).outcome ctx s with
    | fault | outOfFuel => rfl
    | done r s =>
      simp only [Outcome.bind]
      cases hr : Result.isSignal r with
      | true => simp only [if_true, hr]
      | false =>
        simp only [Bool.false_eq_true, if_false]
        exact ih hr

/-- A loop behind the statements of a block is run unless those end with a signal. -/
theorem outcome_block_loop {tok : Token.Kind → Token} {ss : List Stmt} :
    (Job.block (.mk (tok .lbrace)
        (ss ++ [.expr (tok .kwWhile) (.repeated tok c ss)]))).outcome ctx s =
      ((Job.block (.mk (tok .lbrace) ss)).outcome ctx s).bind fun r s =>
        if Result.isSignal r then .done r s
        else (Job.loop c (.mk (tok .lbrace) ss)).outcome ctx s := by
  rw [outcome_block, outcome_block, outcome_stmts_append rfl]
  simp only [outcome_stmts_cons, outcome_stmts_nil, ite_self, outcome_exprStmt, Expr.repeated,
    outcome_exprLoop, Outcome.bind_done]

/-- **The first round of a loop can be put in front of it**, unless the body leaves the loop in that
    round.  With a break in the first round the loop would end, but the choice would hand the break
    on. -/
theorem outcome_unrolled {tok : Token.Kind → Token} {ss : List Stmt}
    (h : ∀ s₁ s₂, c.Holds ctx s s₁ →
      ¬ (Node.stmt (.block (.mk (tok .lbrace) ss))).Evaluates ctx s₁ (some .brk) s₂) :
    (Job.expr (.repeated tok c ss)).outcome ctx s =
      (Job.expr (.unrolled tok c ss)).outcome ctx s := by
  rw [Expr.repeated, Expr.unrolled, outcome_exprLoop, outcome_loop, outcome_choice]
  -- The condition is evaluated first in both, and a signal from it is the result of both.
  refine Outcome.operand_congr_done fun rc s₁ hc hsignal => ?_
  by_cases htruthy : (rc.getD .null).truthy = true
  · rw [if_pos htruthy, if_pos htruthy, outcome_block_loop]
    refine Outcome.bind_congr_done fun rb s₂ hb => ?_
    have hholds : c.Holds ctx s s₁ := ⟨rc, Node.evaluates_expr_iff.2 hc, hsignal, htruthy⟩
    have hne : rb ≠ some .brk := by
      rintro rfl
      exact h s₁ s₂ hholds (evaluates_block_iff.2 hb)
    exact afterRound_of_ne_brk hne
  · -- A choice without an alternative gives null, like a loop that is over.
    rw [if_neg htruthy, if_neg htruthy, Block.isMissing, if_pos rfl]

end Eval

/-- **Loops unroll**: unless the body leaves the loop in the first round, the loop and the choice
    with the first round in front of it end together, with the same result, the same scopes and the
    same calls noted down.  And **a loop that ends** results in null, in an error, in a return, or
    in a break that its condition gave after some rounds. -/
theorem loop_unrolls (tok : Token.Kind → Token) (c : Expr) (ss : List Stmt) (ctx : Context)
    (s : Store) :
    ((∀ s₁ s₂, c.Holds ctx s s₁ →
        ¬ (Node.stmt (.block (.mk (tok .lbrace) ss))).Evaluates ctx s₁ (some .brk) s₂) →
      Node.SameEffect ctx s (.expr (.repeated tok c ss)) (.expr (.unrolled tok c ss))) ∧
    ∀ r t, (Node.expr (.repeated tok c ss)).Evaluates ctx s r t →
      r = some .null ∨ (∃ e, r = some (.err e)) ∨ (∃ v, r = some (.ret v)) ∨
      r = some .brk ∧ ∃ s', Rounds ctx c (.mk (tok .lbrace) ss) s s' ∧
        (Node.expr c).Evaluates ctx s' (some .brk) t := by
  refine ⟨fun h => Node.sameEffect_expr (outcome_unrolled h), fun r t h => ?_⟩
  obtain ⟨s', hrounds, hlast⟩ := Node.evaluates_loop_iff.1 h
  rcases hlast.result with hnull | herr | hret | ⟨hbrk, hc⟩
  · exact .inl hnull
  · exact .inr (.inl herr)
  · exact .inr (.inr (.inl hret))
  · exact .inr (.inr (.inr ⟨hbrk, s', hrounds, hc⟩))

/-- The condition `si (x) { verdadero } tonces { termina }`, which is a break once `x` is false. -/
def Expr.trueOrBreak : Expr :=
  .choice (.mark .kwIf) (.ident (.ofToken ⟨.ident, "x"⟩))
    (.mk (.mark .lbrace) [.expr ⟨.kwTrue, "verdadero"⟩ (.bool ⟨.kwTrue, "verdadero"⟩ true)])
    (.mk (.mark .lbrace) [.brk (.mark .kwBreak)])

/-- The statement `incognita x = falso`. -/
def Stmt.clears : Stmt :=
  .bind (.mark .kwLet) (some (.ofToken ⟨.ident, "x"⟩)) (.bool ⟨.kwFalse, "falso"⟩ false)

/-- A store in which `x` has a truth value. -/
def Store.withTruth (b : Bool) : Store := ⟨#[[("x", .bool b)]], [], 0⟩

/-- The loop ends with the break of its condition after one round.  So it does with that round in
    front of it. -/
theorem loop_unrolls_clears :
    let ctx : Context := ⟨.root, 0, Eval.defaultLimit⟩
    let again := Expr.repeated .mark .trueOrBreak [.clears]
    let first := Expr.unrolled .mark .trueOrBreak [.clears]
    (∀ s₁ s₂, Expr.trueOrBreak.Holds ctx (.withTruth true) s₁ →
      ¬ (Node.stmt (.block (.mk (.mark .lbrace) [.clears]))).Evaluates ctx s₁ (some .brk) s₂) ∧
    (Node.expr again).Evaluates ctx (.withTruth true) (some .brk) (.withTruth false) ∧
    Node.SameEffect ctx (.withTruth true) (.expr again) (.expr first) ∧
    ∃ s', Rounds ctx .trueOrBreak (.mk (.mark .lbrace) [.clears]) (.withTruth true) s' ∧
      (Node.expr .trueOrBreak).Evaluates ctx s' (some .brk) (.withTruth false) := by
  intro ctx again first
  have hfirst : (Node.expr .trueOrBreak).Evaluates ctx (.withTruth true) (some (.bool true))
      (.withTruth true) := ⟨6, rfl⟩
  have hbody : (Node.stmt (.block (.mk (.mark .lbrace) [.clears]))).Evaluates ctx (.withTruth true)
      none (.withTruth false) := ⟨6, rfl⟩
  have hagain : (Node.expr again).Evaluates ctx (.withTruth true) (some .brk) (.withTruth false) :=
    ⟨9, rfl⟩
  have hbreak : ∀ s₁ s₂, Expr.trueOrBreak.Holds ctx (.withTruth true) s₁ →
      ¬ (Node.stmt (.block (.mk (.mark .lbrace) [.clears]))).Evaluates ctx s₁ (some .brk) s₂ := by
    rintro s₁ s₂ ⟨r, hr, -⟩ hbrk
    obtain ⟨-, rfl⟩ := hfirst.unique hr
    exact absurd (hbody.unique hbrk).1 (by simp)
  obtain ⟨hunrolls, hends⟩ := loop_unrolls .mark .trueOrBreak [.clears] ctx (.withTruth true)
  refine ⟨hbreak, hagain, hunrolls hbreak, ?_⟩
  rcases hends _ _ hagain with h | ⟨_, h⟩ | ⟨_, h⟩ | ⟨-, h⟩
  · exact absurd h (by simp)
  · exact absurd h (by simp)
  · exact absurd h (by simp)
  · exact h

end Incognita
