import Incognita.Tree.Parser

namespace Incognita

/-!
# Parser — the bound on nesting is never reached

The reading functions call each other, so a fact about one of them is a fact about all of
them.  A `Task` is a call of any of the ten, which lets one induction on the bound speak of
all of them at once.

* `Task`, `Task.run` — a call, and what it gives under a bound;
* `Task.remaining` — the tokens that the call can leave at most;
* `Task.need` — a bound that is enough for the call;
* `Task.run_total` — under that bound the call gives a step, and the tokens it leaves are
  the last ones of those it got;
* `program_total` — hence reading a source always ends, with `Parser.enough` as the bound.
-/

namespace Parser

/-! ### The functions that look at a few tokens only -/

/-- Skipping a semicolon leaves tokens of those that were there. -/
theorem skipSemicolon_suffix (ts : List Token) : skipSemicolon ts <:+ ts := by
  cases ts with
  | nil => exact List.suffix_refl []
  | cons t ts =>
    rw [skipSemicolon]
    split
    · exact List.suffix_cons t ts
    · exact List.suffix_refl _

/-- A token of the kind is there if and only if it is the first one. -/
theorem expect?_eq_some {k : Token.Kind} {ts rest : List Token} :
    expect? k ts = some rest ↔ ∃ t, t.kind = k ∧ ts = t :: rest := by
  cases ts with
  | nil => simp [expect?]
  | cons t ts =>
    rw [expect?]
    constructor
    · intro h
      split at h
      · next hk => exact ⟨t, hk, by rw [Option.some.inj h]⟩
      · exact absurd h (by simp)
    · rintro ⟨u, hu, heq⟩
      obtain ⟨rfl, rfl⟩ := List.cons.inj heq
      rw [if_pos hu]

/-- An expected token is taken off the front. -/
theorem expect?_suffix {k : Token.Kind} {ts rest : List Token} (h : expect? k ts = some rest) :
    rest <:+ ts := by
  obtain ⟨t, -, rfl⟩ := expect?_eq_some.1 h
  exact List.suffix_cons t rest

/-- Names with commas between them are taken off the front. -/
theorem moreParams_suffix (ts : List Token) : (moreParams ts).rest <:+ ts := by
  fun_induction moreParams ts with
  | case5 t u ts _ _ ih => exact ih.trans ((List.suffix_cons u ts).trans (List.suffix_cons t _))
  | case1 | case2 | case3 | case4 | case6 | case7 | case8 => simp

/-- Parameters are taken off the front. -/
theorem params_suffix (ts : List Token) : (params ts).rest <:+ ts := by
  cases ts with
  | nil => exact List.suffix_refl _
  | cons t ts =>
    rw [params]
    split
    · exact List.suffix_cons t ts
    · split
      · exact (moreParams_suffix ts).trans (List.suffix_cons t ts)
      · exact List.suffix_refl _

/-! ### The parameters, one by one -/

section

variable {t u : Token} {ts : List Token}

/-- Parameters start with a name, and `moreParams` reads the others. -/
theorem params_of_ident (ht : t.kind = .ident) :
    params (t :: ts) = (moreParams ts).map (·.map (Ident.ofToken t :: ·)) := by
  simp [params, ht]

/-- A parenthesis closes the parameters. -/
theorem moreParams_of_rparen (ht : t.kind = .rparen) :
    moreParams (t :: ts) = ⟨some [], ts, []⟩ := by
  cases ts <;> simp [moreParams, ht]

/-- Behind a comma the names go on like parameters. -/
theorem moreParams_of_comma (ht : t.kind = .comma) (hu : u.kind = .ident) :
    moreParams (t :: u :: ts) = params (u :: ts) := by
  simp [moreParams, params, ht, hu]

end

/-! ### The statements, one by one -/

section

variable {fuel loops : Nat} {t : Token} {ts : List Token}

/-- A return has a value unless something follows that ends it. -/
theorem stmt_of_kwReturn (hk : t.kind = .kwReturn) :
    stmt (fuel + 1) loops t ts =
      if endsReturn (peek ts) then some ⟨some (.ret t .missing), skipSemicolon ts, []⟩
      else (expr fuel loops Power.lowest ts).bind fun e =>
        some ⟨some (.ret t e.value), skipSemicolon e.rest, e.faults⟩ := by
  cases ts <;> simp [stmt, hk]

/-- A break is read in loops and outside, but outside it is reported. -/
theorem stmt_of_kwBreak (hk : t.kind = .kwBreak) :
    stmt (fuel + 1) loops t ts =
      some ⟨some (.brk t), skipSemicolon ts, if loops = 0 then [.strayBreak] else []⟩ := by
  cases ts <;> simp [stmt, hk]

/-- Every other statement but a binding is an expression. -/
theorem stmt_of_expr (hl : t.kind ≠ .kwLet) (hr : t.kind ≠ .kwReturn) (hb : t.kind ≠ .kwBreak) :
    stmt (fuel + 1) loops t ts =
      (expr fuel loops Power.lowest (t :: ts)).bind fun e =>
        if e.value.isMissing then some ⟨none, skipSemicolon e.rest, e.faults⟩
        else some ⟨some (.expr t e.value), skipSemicolon e.rest, e.faults⟩ := by
  cases ts <;> simp only [stmt, Option.bind_eq_bind]
  all_goals
    refine congrArg _ (funext fun e => ?_)
    obtain ⟨value, rest, faults⟩ := e
    cases value <;> rfl

end

/-! ### Tasks -/

/-- A call of one of the reading functions. -/
inductive Task where
  /-- An expression whose operators bind tighter than the power. -/
  | expr (loops : Nat) (power : Power) (ts : List Token)
  /-- An operand that starts with the token. -/
  | operand (loops : Nat) (t : Token) (ts : List Token)
  /-- What goes on behind a left operand. -/
  | operators (loops : Nat) (power : Power) (left : Expr) (ts : List Token)
  /-- The arguments of a call, behind its parenthesis. -/
  | args (loops : Nat) (ts : List Token)
  /-- The arguments behind the first one. -/
  | moreArgs (loops : Nat) (ts : List Token)
  /-- A condition in parentheses. -/
  | condition (loops : Nat) (ts : List Token)
  /-- A choice behind its condition. -/
  | choice (loops : Nat) (t : Token) (cond : Expr) (ts : List Token)
  /-- A block in braces. -/
  | block (loops : Nat) (ts : List Token)
  /-- The statements of a block, up to its closing brace. -/
  | body (loops : Nat) (ts : List Token)
  /-- A statement that starts with the token. -/
  | stmt (loops : Nat) (t : Token) (ts : List Token)

namespace Task

/-- What a call reads. -/
abbrev Result : Task → Type
  | expr .. | operand .. | operators .. | choice .. => Expr
  | args .. | moreArgs .. => Option (List Expr)
  | condition .. => Option Expr
  | block .. => Block
  | body .. => List Stmt
  | stmt .. => Option Stmt

/-- The call under a bound. -/
def run (fuel : Nat) : (k : Task) → Option (Step k.Result)
  | expr loops power ts => Parser.expr fuel loops power ts
  | operand loops t ts => Parser.operand fuel loops t ts
  | operators loops power left ts => Parser.operators fuel loops power left ts
  | args loops ts => Parser.args fuel loops ts
  | moreArgs loops ts => Parser.moreArgs fuel loops ts
  | condition loops ts => Parser.condition fuel loops ts
  | choice loops t cond ts => Parser.choice fuel loops t cond ts
  | block loops ts => Parser.block fuel loops ts
  | body loops ts => Parser.body fuel loops ts
  | stmt loops t ts => Parser.stmt fuel loops t ts

theorem run_zero (k : Task) : k.run 0 = none := by
  cases k <;> simp [run, Parser.expr, Parser.operand, Parser.operators, Parser.args,
    Parser.moreArgs, Parser.condition, Parser.choice, Parser.block, Parser.body, Parser.stmt]

/-- A call that gives something had a bound above zero. -/
theorem succ_of_run {k : Task} {fuel : Nat} {s : Step k.Result} (h : k.run fuel = some s) :
    ∃ fuel', fuel = fuel' + 1 := by
  cases fuel with
  | zero => exact absurd h (by simp [run_zero])
  | succ fuel => exact ⟨fuel, rfl⟩

/-- The tokens that the call leaves at most.  An expression takes a token whenever there is
    one, which is what makes a list of statements get shorter. -/
def remaining : Task → List Token
  | expr _ _ ts => ts.tail
  | operand _ _ ts | operators _ _ _ ts | args _ ts | moreArgs _ ts | condition _ ts
  | choice _ _ _ ts | block _ ts | body _ ts | stmt _ _ ts => ts

/-- A bound that is enough for the call. -/
def need : Task → Nat
  -- Four calls at most are nested before a token is taken.
  | expr _ _ ts | operators _ _ _ ts | moreArgs _ ts | condition _ ts | block _ ts =>
    4 * ts.length + 1
  | args _ ts | choice _ _ _ ts => 4 * ts.length + 2
  | operand _ _ ts | body _ ts => 4 * ts.length + 3
  | stmt _ _ ts => 4 * ts.length + 6

/-- The call ends under the bound `fuel`, and leaves tokens of those it got. -/
def Ends (fuel : Nat) (k : Task) : Prop :=
  ∃ s, k.run fuel = some s ∧ s.rest <:+ k.remaining

/-- Every call ends for which the bound is enough. -/
def AllEnd (fuel : Nat) : Prop := ∀ k : Task, k.need ≤ fuel → k.Ends fuel

/-! ### One lemma for each function: it ends if the calls it makes do -/

variable {fuel : Nat}

/-- The step for expressions: the operand takes a token, and the operators are left fewer. -/
theorem expr_ends (ih : AllEnd fuel) (loops : Nat) (power : Power) (ts : List Token)
    (h : (expr loops power ts).need ≤ fuel + 1) : (expr loops power ts).Ends (fuel + 1) := by
  cases ts with
  | nil => exact ⟨⟨.missing, [], [.noRule ""]⟩, by simp [run, Parser.expr], List.suffix_refl _⟩
  | cons t ts =>
    simp only [need, List.length_cons] at h
    by_cases hs : startsExpr t.kind
    -- The bounds of both calls are met because the first token is gone.
    · obtain ⟨left, hl, hlr⟩ := ih (operand loops t ts) (by simp only [need]; omega)
      have hlen : left.rest.length ≤ ts.length := hlr.length_le
      obtain ⟨whole, hw, hwr⟩ := ih (operators loops power left.value left.rest)
        (by simp only [need]; omega)
      simp only [run] at hl hw
      exact ⟨whole.after left.faults, by simp [run, Parser.expr, hs, hl, hw], hwr.trans hlr⟩
    · exact ⟨⟨.missing, ts, [.noRule t.literal]⟩, by simp [run, Parser.expr, hs],
        List.suffix_refl _⟩

/-- A choice ends after its condition. -/
theorem operand_choice_ends (ih : AllEnd fuel) (loops : Nat) (t : Token) (ts : List Token)
    (h : (operand loops t ts).need ≤ fuel + 1) (hk : t.kind = .kwIf) :
    (operand loops t ts).Ends (fuel + 1) := by
  simp only [need] at h
  obtain ⟨c, hc, hcr⟩ := ih (condition loops ts) (by simp only [need]; omega)
  have hlen : c.rest.length ≤ ts.length := hcr.length_le
  simp only [run] at hc
  cases hv : c.value with
  | none => exact ⟨⟨.missing, c.rest, c.faults⟩, by simp [run, Parser.operand, hk, hc, hv], hcr⟩
  | some cond =>
    obtain ⟨w, hw, hwr⟩ := ih (choice loops t cond c.rest) (by simp only [need]; omega)
    simp only [run] at hw
    exact ⟨w.after c.faults, by simp [run, Parser.operand, hk, hc, hv, hw], hwr.trans hcr⟩

/-- A loop ends after its condition. -/
theorem operand_loop_ends (ih : AllEnd fuel) (loops : Nat) (t : Token) (ts : List Token)
    (h : (operand loops t ts).need ≤ fuel + 1) (hk : t.kind = .kwWhile) :
    (operand loops t ts).Ends (fuel + 1) := by
  simp only [need] at h
  obtain ⟨c, hc, hcr⟩ := ih (condition loops ts) (by simp only [need]; omega)
  have hlen : c.rest.length ≤ ts.length := hcr.length_le
  simp only [run] at hc
  cases hv : c.value with
  | none => exact ⟨⟨.missing, c.rest, c.faults⟩, by simp [run, Parser.operand, hk, hc, hv], hcr⟩
  | some cond =>
    obtain ⟨b, hb, hbr⟩ := ih (block (loops + 1) c.rest) (by simp only [need]; omega)
    simp only [run] at hb
    cases hbv : b.value with
    | missing =>
      exact ⟨⟨.missing, b.rest, c.faults ++ b.faults⟩,
        by simp [run, Parser.operand, hk, hc, hv, hb, hbv], hbr.trans hcr⟩
    | mk u ss =>
      exact ⟨⟨.loop t cond (.mk u ss), b.rest, c.faults ++ b.faults⟩,
        by simp [run, Parser.operand, hk, hc, hv, hb, hbv], hbr.trans hcr⟩

/-- A function ends after its parameters. -/
theorem operand_fn_ends (ih : AllEnd fuel) (loops : Nat) (t : Token) (ts : List Token)
    (h : (operand loops t ts).need ≤ fuel + 1) (hk : t.kind = .kwFunction) :
    (operand loops t ts).Ends (fuel + 1) := by
  simp only [need] at h
  cases hp : expect? .lparen ts with
  | none =>
    exact ⟨⟨.missing, ts, [unexpected .lparen ts]⟩, by simp [run, Parser.operand, hk, hp],
      List.suffix_refl _⟩
  | some ts' =>
    have hpr : (params ts').rest <:+ ts := (params_suffix ts').trans (expect?_suffix hp)
    have hlen := hpr.length_le
    cases hv : (params ts').value with
    | none =>
      exact ⟨⟨.missing, (params ts').rest, (params ts').faults⟩,
        by simp [run, Parser.operand, hk, hp, hv], hpr⟩
    | some names =>
      -- The body is in no loop, so the call starts from zero again.
      obtain ⟨b, hb, hbr⟩ := ih (block 0 (params ts').rest) (by simp only [need]; omega)
      simp only [run] at hb
      cases hbv : b.value with
      | missing =>
        exact ⟨⟨.missing, b.rest, (params ts').faults ++ b.faults⟩,
          by simp [run, Parser.operand, hk, hp, hv, hb, hbv], hbr.trans hpr⟩
      | mk u ss =>
        exact ⟨⟨.fn t (names.map some) (.mk u ss), b.rest, (params ts').faults ++ b.faults⟩,
          by simp [run, Parser.operand, hk, hp, hv, hb, hbv], hbr.trans hpr⟩

/-- The step for operands, by the kind of the token that they start with. -/
theorem operand_ends (ih : AllEnd fuel) (loops : Nat) (t : Token) (ts : List Token)
    (h : (operand loops t ts).need ≤ fuel + 1) : (operand loops t ts).Ends (fuel + 1) := by
  have hexpr : ∀ power, (expr loops power ts).Ends fuel := by
    intro power
    simp only [need] at h
    exact ih _ (by simp only [need]; omega)
  cases hk : t.kind with
  | bang | minus =>
    obtain ⟨e, he, her⟩ := hexpr Power.unary
    simp only [run] at he
    exact ⟨e.map (.unary t t.literal), by simp [run, Parser.operand, hk, he],
      her.trans (List.tail_suffix ts)⟩
  | lparen =>
    obtain ⟨e, he, her⟩ := hexpr Power.lowest
    have her' : e.rest <:+ ts := her.trans (List.tail_suffix ts)
    simp only [run] at he
    cases hp : expect? .rparen e.rest with
    | none =>
      exact ⟨⟨.missing, e.rest, e.faults ++ [unexpected .rparen e.rest]⟩,
        by simp [run, Parser.operand, hk, he, hp], her'⟩
    | some after =>
      exact ⟨⟨e.value, after, e.faults⟩, by simp [run, Parser.operand, hk, he, hp],
        (expect?_suffix hp).trans her'⟩
  | kwIf => exact operand_choice_ends ih loops t ts h hk
  | kwWhile => exact operand_loop_ends ih loops t ts h hk
  | kwFunction => exact operand_fn_ends ih loops t ts h hk
  | int =>
    refine ⟨intLiteral t ts, by simp [run, Parser.operand, hk], ?_⟩
    rw [intLiteral]
    split <;> exact List.suffix_refl _
  | _ =>
    simp only [Ends, run, Parser.operand, hk]
    exact ⟨_, rfl, List.suffix_refl _⟩

/-- The step for operators, each of which is a token that is taken. -/
theorem operators_ends (ih : AllEnd fuel) (loops : Nat) (power : Power) (left : Expr)
    (ts : List Token) (h : (operators loops power left ts).need ≤ fuel + 1) :
    (operators loops power left ts).Ends (fuel + 1) := by
  cases ts with
  | nil => exact ⟨⟨left, [], []⟩, by simp [run, Parser.operators], List.suffix_refl _⟩
  | cons t ts =>
    simp only [need, List.length_cons] at h
    -- Whatever the first operator was read to, the loop goes on with fewer tokens.
    have hmore : ∀ left' rest, rest <:+ ts → (operators loops power left' rest).Ends fuel := by
      intro left' rest hr
      have hlen := hr.length_le
      exact ih _ (by simp only [need]; omega)
    by_cases hp : power < Power.ofKind t.kind
    · by_cases hk : t.kind = .lparen
      · obtain ⟨as, ha, har⟩ := ih (args loops ts) (by simp only [need]; omega)
        simp only [run] at ha
        rw [hk] at hp
        cases hv : as.value with
        | none =>
          obtain ⟨w, hw, hwr⟩ := hmore .missing as.rest har
          simp only [run] at hw
          exact ⟨w.after as.faults, by simp [run, Parser.operators, hp, hk, ha, hv, hw],
            (hwr.trans har).trans (List.suffix_cons t ts)⟩
        | some es =>
          obtain ⟨w, hw, hwr⟩ := hmore (.call t left es) as.rest har
          simp only [run] at hw
          exact ⟨w.after as.faults, by simp [run, Parser.operators, hp, hk, ha, hv, hw],
            (hwr.trans har).trans (List.suffix_cons t ts)⟩
      · obtain ⟨r, hr, hrr⟩ := ih (expr loops (Power.ofKind t.kind) ts) (by simp only [need]; omega)
        have hrr' : r.rest <:+ ts := hrr.trans (List.tail_suffix ts)
        obtain ⟨w, hw, hwr⟩ := hmore (.binary t left t.literal r.value) r.rest hrr'
        simp only [run] at hr hw
        exact ⟨w.after r.faults, by simp [run, Parser.operators, hp, hk, hr, hw],
          (hwr.trans hrr').trans (List.suffix_cons t ts)⟩
    · exact ⟨⟨left, t :: ts, []⟩, by simp [run, Parser.operators, hp], List.suffix_refl _⟩

/-- The step for arguments. -/
theorem args_ends (ih : AllEnd fuel) (loops : Nat) (ts : List Token)
    (h : (args loops ts).need ≤ fuel + 1) : (args loops ts).Ends (fuel + 1) := by
  simp only [need] at h
  cases hp : expect? .rparen ts with
  | some after =>
    exact ⟨⟨some [], after, []⟩, by simp [run, Parser.args, hp], expect?_suffix hp⟩
  | none =>
    obtain ⟨e, he, her⟩ := ih (expr loops Power.lowest ts) (by simp only [need]; omega)
    have her' : e.rest <:+ ts := her.trans (List.tail_suffix ts)
    have hlen := her'.length_le
    obtain ⟨es, hes, hesr⟩ := ih (moreArgs loops e.rest) (by simp only [need]; omega)
    simp only [run] at he hes
    exact ⟨(es.map (·.map (e.value :: ·))).after e.faults, by simp [run, Parser.args, hp, he, hes],
      hesr.trans her'⟩

/-- The step for the arguments behind the first one, each after a comma. -/
theorem moreArgs_ends (ih : AllEnd fuel) (loops : Nat) (ts : List Token)
    (h : (moreArgs loops ts).need ≤ fuel + 1) : (moreArgs loops ts).Ends (fuel + 1) := by
  cases ts with
  | nil =>
    exact ⟨⟨none, [], [.unexpected .rparen .eof]⟩, by simp [run, Parser.moreArgs],
      List.suffix_refl _⟩
  | cons t ts =>
    simp only [need, List.length_cons] at h
    by_cases hc : t.kind = .comma
    · obtain ⟨e, he, her⟩ := ih (expr loops Power.lowest ts) (by simp only [need]; omega)
      have her' : e.rest <:+ ts := her.trans (List.tail_suffix ts)
      have hlen := her'.length_le
      obtain ⟨es, hes, hesr⟩ := ih (moreArgs loops e.rest) (by simp only [need]; omega)
      simp only [run] at he hes
      exact ⟨(es.map (·.map (e.value :: ·))).after e.faults,
        by simp [run, Parser.moreArgs, hc, he, hes],
        (hesr.trans her').trans (List.suffix_cons t ts)⟩
    · by_cases hr : t.kind = .rparen
      · exact ⟨⟨some [], ts, []⟩, by simp [run, Parser.moreArgs, hr], List.suffix_cons t ts⟩
      · exact ⟨⟨none, t :: ts, [.unexpected .rparen t.kind]⟩,
          by simp [run, Parser.moreArgs, hc, hr], List.suffix_refl _⟩

/-- The step for a condition in parentheses. -/
theorem condition_ends (ih : AllEnd fuel) (loops : Nat) (ts : List Token)
    (h : (condition loops ts).need ≤ fuel + 1) : (condition loops ts).Ends (fuel + 1) := by
  simp only [need] at h
  cases hp : expect? .lparen ts with
  | none =>
    exact ⟨⟨none, ts, [unexpected .lparen ts]⟩, by simp [run, Parser.condition, hp],
      List.suffix_refl _⟩
  | some ts' =>
    -- The opening parenthesis is taken, which pays for the expression.
    have hlen : ts'.length < ts.length := by
      obtain ⟨u, -, rfl⟩ := expect?_eq_some.1 hp
      simp
    obtain ⟨e, he, her⟩ := ih (expr loops Power.lowest ts') (by simp only [need]; omega)
    have her' : e.rest <:+ ts := (her.trans (List.tail_suffix ts')).trans (expect?_suffix hp)
    simp only [run] at he
    cases hr : expect? .rparen e.rest with
    | none =>
      exact ⟨⟨none, e.rest, e.faults ++ [unexpected .rparen e.rest]⟩,
        by simp [run, Parser.condition, hp, he, hr], her'⟩
    | some after =>
      exact ⟨⟨some e.value, after, e.faults⟩, by simp [run, Parser.condition, hp, he, hr],
        (expect?_suffix hr).trans her'⟩

/-- The step for a choice, behind its condition. -/
theorem choice_ends (ih : AllEnd fuel) (loops : Nat) (t : Token) (cond : Expr) (ts : List Token)
    (h : (choice loops t cond ts).need ≤ fuel + 1) :
    (choice loops t cond ts).Ends (fuel + 1) := by
  simp only [need] at h
  obtain ⟨a, ha, har⟩ := ih (block loops ts) (by simp only [need]; omega)
  simp only [run] at ha
  cases hav : a.value with
  | missing =>
    exact ⟨⟨.missing, a.rest, a.faults⟩, by simp [run, Parser.choice, ha, hav], har⟩
  | mk u ss =>
    cases hp : expect? .kwElse a.rest with
    | none =>
      exact ⟨⟨.choice t cond (.mk u ss) .missing, a.rest, a.faults⟩,
        by simp [run, Parser.choice, ha, hav, hp], har⟩
    | some ts' =>
      have hr : ts' <:+ ts := (expect?_suffix hp).trans har
      have hlen := hr.length_le
      obtain ⟨b, hb, hbr⟩ := ih (block loops ts') (by simp only [need]; omega)
      simp only [run] at hb
      cases hbv : b.value with
      | missing =>
        exact ⟨⟨.missing, b.rest, a.faults ++ b.faults⟩,
          by simp [run, Parser.choice, ha, hav, hp, hb, hbv], hbr.trans hr⟩
      | mk v ss' =>
        exact ⟨⟨.choice t cond (.mk u ss) (.mk v ss'), b.rest, a.faults ++ b.faults⟩,
          by simp [run, Parser.choice, ha, hav, hp, hb, hbv], hbr.trans hr⟩

/-- The step for a block. -/
theorem block_ends (ih : AllEnd fuel) (loops : Nat) (ts : List Token)
    (h : (block loops ts).need ≤ fuel + 1) : (block loops ts).Ends (fuel + 1) := by
  cases ts with
  | nil =>
    exact ⟨⟨.missing, [], [.unexpected .lbrace .eof]⟩, by simp [run, Parser.block],
      List.suffix_refl _⟩
  | cons t ts =>
    simp only [need, List.length_cons] at h
    by_cases hk : t.kind = .lbrace
    · obtain ⟨ss, hs, hsr⟩ := ih (body loops ts) (by simp only [need]; omega)
      simp only [run] at hs
      exact ⟨ss.map (.mk t), by simp [run, Parser.block, hk, hs],
        hsr.trans (List.suffix_cons t ts)⟩
    · exact ⟨⟨.missing, t :: ts, [.unexpected .lbrace t.kind]⟩, by simp [run, Parser.block, hk],
        List.suffix_refl _⟩

/-- The step for the statements of a block, each of which takes a token at least. -/
theorem body_ends (ih : AllEnd fuel) (loops : Nat) (ts : List Token)
    (h : (body loops ts).need ≤ fuel + 1) : (body loops ts).Ends (fuel + 1) := by
  cases ts with
  | nil =>
    exact ⟨⟨[], [], [.unclosedBlock]⟩, by simp [run, Parser.body], List.suffix_refl _⟩
  | cons t ts =>
    simp only [need, List.length_cons] at h
    by_cases hk : t.kind = .rbrace
    · exact ⟨⟨[], ts, []⟩, by simp [run, Parser.body, hk], List.suffix_cons t ts⟩
    · obtain ⟨s, hs, hsr⟩ := ih (stmt loops t ts) (by simp only [need]; omega)
      have hlen : s.rest.length ≤ ts.length := hsr.length_le
      -- The statement has left fewer tokens than there were.
      obtain ⟨ss, hss, hssr⟩ := ih (body loops s.rest) (by simp only [need]; omega)
      simp only [run] at hs hss
      exact ⟨(ss.map (s.value.toList ++ ·)).after s.faults,
        by simp [run, Parser.body, hk, hs, hss],
        (hssr.trans hsr).trans (List.suffix_cons t ts)⟩

/-- A binding ends. -/
theorem stmt_bind_ends (ih : AllEnd fuel) (loops : Nat) (t : Token) (ts : List Token)
    (h : (stmt loops t ts).need ≤ fuel + 1) (hk : t.kind = .kwLet) :
    (stmt loops t ts).Ends (fuel + 1) := by
  simp only [need] at h
  cases ts with
  | nil =>
    exact ⟨⟨none, [], [.unexpected .ident .eof]⟩, by simp [run, Parser.stmt, hk],
      List.suffix_refl _⟩
  | cons name ts =>
    simp only [List.length_cons] at h
    by_cases hn : name.kind = .ident
    · cases hp : expect? .assign ts with
      | none =>
        exact ⟨⟨none, ts, [unexpected .assign ts]⟩, by simp [run, Parser.stmt, hk, hn, hp],
          List.suffix_cons name ts⟩
      | some ts' =>
        have hlen := (expect?_suffix hp).length_le
        obtain ⟨e, he, her⟩ := ih (expr loops Power.lowest ts') (by simp only [need]; omega)
        have her' : e.rest <:+ ts := (her.trans (List.tail_suffix ts')).trans (expect?_suffix hp)
        simp only [run] at he
        exact ⟨⟨some (.bind t (some (.ofToken name)) e.value), skipSemicolon e.rest, e.faults⟩,
          by simp [run, Parser.stmt, hk, hn, hp, he],
          ((skipSemicolon_suffix _).trans her').trans (List.suffix_cons name ts)⟩
    · exact ⟨⟨none, name :: ts, [.unexpected .ident name.kind]⟩,
        by simp [run, Parser.stmt, hk, hn], List.suffix_refl _⟩

/-- The step for a statement. -/
theorem stmt_ends (ih : AllEnd fuel) (loops : Nat) (t : Token) (ts : List Token)
    (h : (stmt loops t ts).need ≤ fuel + 1) : (stmt loops t ts).Ends (fuel + 1) := by
  -- The first token of an expression statement is read again as part of the expression.
  have hexpr : ∀ power ts', ts'.length ≤ ts.length + 1 → (expr loops power ts').Ends fuel := by
    intro power ts' hlen
    simp only [need] at h
    exact ih _ (by simp only [need]; omega)
  cases hk : t.kind with
  | kwLet => exact stmt_bind_ends ih loops t ts h hk
  | kwReturn =>
    by_cases hr : endsReturn (peek ts)
    · exact ⟨⟨some (.ret t .missing), skipSemicolon ts, []⟩,
        by simp [run, stmt_of_kwReturn hk, hr], skipSemicolon_suffix ts⟩
    · obtain ⟨e, he, her⟩ := hexpr Power.lowest ts (by omega)
      simp only [run] at he
      exact ⟨⟨some (.ret t e.value), skipSemicolon e.rest, e.faults⟩,
        by simp [run, stmt_of_kwReturn hk, hr, he],
        ((skipSemicolon_suffix _).trans her).trans (List.tail_suffix ts)⟩
  | kwBreak =>
    exact ⟨⟨some (.brk t), skipSemicolon ts, if loops = 0 then [.strayBreak] else []⟩,
      by simp [run, stmt_of_kwBreak hk], skipSemicolon_suffix ts⟩
  | _ =>
    -- The expression starts with `t` itself, and takes at least that token.
    obtain ⟨e, he, her⟩ := hexpr Power.lowest (t :: ts) (by simp)
    have hr : skipSemicolon e.rest <:+ ts := (skipSemicolon_suffix _).trans her
    simp only [run] at he
    rw [Ends, run, stmt_of_expr (by simp [hk]) (by simp [hk]) (by simp [hk]), he]
    simp only [Option.bind_some]
    split <;> exact ⟨_, rfl, hr⟩

/-- **Every call ends** under the bound that its tokens give, and the tokens that it leaves
    are the last ones of those it got. -/
theorem run_total (fuel : Nat) : AllEnd fuel := by
  induction fuel with
  | zero =>
    intro k h
    -- No call can do without any bound.
    cases k <;> simp [need] at h
  | succ fuel ih =>
    intro k h
    cases k with
    | expr loops power ts => exact expr_ends ih loops power ts h
    | operand loops t ts => exact operand_ends ih loops t ts h
    | operators loops power left ts => exact operators_ends ih loops power left ts h
    | args loops ts => exact args_ends ih loops ts h
    | moreArgs loops ts => exact moreArgs_ends ih loops ts h
    | condition loops ts => exact condition_ends ih loops ts h
    | choice loops t cond ts => exact choice_ends ih loops t cond ts h
    | block loops ts => exact block_ends ih loops ts h
    | body loops ts => exact body_ends ih loops ts h
    | stmt loops t ts => exact stmt_ends ih loops t ts h

end Task

/-- **Reading a source always ends**, and takes all of its tokens.  Each statement takes a token at
    least, so as many statements as tokens are enough. -/
theorem program_total {fuel : Nat} {ts : List Token} (h : enough ts.length ≤ fuel) :
    ∃ s, program fuel ts = some s ∧ s.rest = [] := by
  induction fuel generalizing ts with
  | zero => simp [enough] at h
  | succ fuel ih =>
    cases ts with
    | nil => exact ⟨⟨[], [], []⟩, by simp [program], rfl⟩
    | cons t ts =>
      simp only [enough, List.length_cons] at h
      obtain ⟨s, hs, hsr⟩ := Task.run_total fuel (.stmt 0 t ts) (by simp only [Task.need]; omega)
      have hlen : s.rest.length ≤ ts.length := hsr.length_le
      obtain ⟨ss, hss, hnil⟩ := @ih s.rest (by simp only [enough]; omega)
      simp only [Task.run] at hs
      exact ⟨(ss.map (s.value.toList ++ ·)).after s.faults, by simp [program, hs, hss], hnil⟩

end Parser

end Incognita
