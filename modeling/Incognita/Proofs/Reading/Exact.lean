import Incognita.Proofs.Reading.Rules

namespace Incognita

/-!
# Parser — the rules say what a call gives

* `Parser.Reads.gives` — a call that can be read by the rules gives nothing else;
* `parseTokens_eq_of_readsAll` — since the bound of a source is enough, a source that can be
  read by the rules is read so.
-/

namespace Parser

/-! ### How a reading starts -/

/-- A token is not found where another one comes next. -/
theorem expect?_eq_none {k : Token.Kind} {ts : List Token} (hk : k ≠ .eof) :
    expect? k ts = none ↔ peek ts ≠ k := by
  cases ts with
  | nil => simp [expect?, peek, hk.symm]
  | cons t ts => simp [expect?, peek]

namespace Reads

section

variable {loops : Nat} {power : Power} {t : Token} {ts rest : List Token} {e : Expr} {n : Nat}

/-- An expression starts neither with a closing parenthesis nor with the end of a return. -/
theorem expect?_rparen (h : Reads (.expr loops power ts) e rest n) :
    expect? .rparen ts = none := by
  obtain ⟨t, ts', rfl, hs⟩ := h.startsExpr_head
  rw [expect?_eq_none (by simp), peek]
  intro hk
  simp [hk, startsExpr] at hs

/-- What is read as an expression does not end a return without a value. -/
theorem not_endsReturn (h : Reads (.expr loops power ts) e rest n) :
    endsReturn (peek ts) = false := by
  obtain ⟨t, ts', rfl, hs⟩ := h.startsExpr_head
  rw [peek]
  cases hk : t.kind <;> simp [hk, startsExpr, endsReturn] at hs ⊢

/-- An expression starts with no keyword of a statement. -/
theorem head_ne_keyword (h : Reads (.expr loops power (t :: ts)) e rest n) :
    t.kind ≠ .kwLet ∧ t.kind ≠ .kwReturn ∧ t.kind ≠ .kwBreak := by
  cases h with
  | expr hs _ _ => cases hk : t.kind <;> simp [hk, startsExpr] at hs ⊢

/-- What is read as an expression is there. -/
theorem not_isMissing (h : Reads (.expr loops power ts) e rest n) : e.isMissing = false := by
  have hp := h.present
  cases e <;> simp_all [Present, Expr.isMissing]

/-- A statement starts with no closing brace. -/
theorem head_ne_rbrace {v : Option Stmt} (h : Reads (.stmt loops t ts) v rest n) :
    t.kind ≠ .rbrace := by
  cases h with
  | bind hk | bareReturn hk | valueReturn hk | brk hk => simp [hk]
  | exprStmt he =>
    obtain ⟨u, us, hu, hs⟩ := he.startsExpr_head
    obtain ⟨rfl, rfl⟩ := List.cons.inj hu
    intro hk
    simp [hk, startsExpr] at hs

end

end Reads

/-! ### One lemma for each rule -/

/-- The call gives the reading, if it gives anything under its bound. -/
def Task.Gives (k : Task) (v : k.Result) (rest : List Token) (n : Nat) : Prop :=
  ∀ fuel s, k.run fuel = some s → s = ⟨v, rest, List.replicate n .strayBreak⟩

/-- It is enough to look at bounds above zero. -/
theorem Task.gives_of_succ {k : Task} {v : k.Result} {rest : List Token} {n : Nat}
    (h : ∀ fuel s, k.run (fuel + 1) = some s → s = ⟨v, rest, List.replicate n .strayBreak⟩) :
    k.Gives v rest n := by
  intro fuel s hs
  obtain ⟨fuel, rfl⟩ := Task.succ_of_run hs
  exact h fuel s hs

section

variable {loops i j : Nat} {power : Power} {t u : Token} {ts mid rest : List Token}
  {left c e r : Expr} {es : List Expr} {a b : Block}

/-- The rule `Reads.expr`: the bound is that of its parts and one more. -/
theorem expr_gives (hs : startsExpr t.kind = true) (hl : (Task.operand loops t ts).Gives left mid i)
    (hw : (Task.operators loops power left mid).Gives e rest j) :
    (Task.expr loops power (t :: ts)).Gives e rest (i + j) := by
  refine Task.gives_of_succ fun fuel s h => ?_
  simp only [Task.run, expr, if_pos hs, Option.bind_eq_bind, Option.bind_eq_some_iff,
    Option.some.injEq] at h
  obtain ⟨l, hl', w, hw', rfl⟩ := h
  obtain rfl := hl _ _ hl'
  obtain rfl := hw _ _ hw'
  simp [Step.after]

/-- The rule for a token that is an expression by itself, which needs nothing else. -/
theorem leaf_gives (hleaf : leaf? t = some e) : (Task.operand loops t ts).Gives e ts 0 := by
  refine Task.gives_of_succ fun fuel s h => ?_
  simp only [Task.run] at h
  -- Of all kinds of tokens, five are an expression by themselves.
  cases hk : t.kind <;> simp only [leaf?, hk, reduceCtorEq] at hleaf
  case int =>
    obtain ⟨n, hn, rfl⟩ := Option.map_eq_some_iff.1 hleaf
    simp only [operand, hk, intLiteral, hn, Option.some.injEq] at h
    exact h.symm
  all_goals
    rw [Option.some.injEq] at hleaf
    simp only [operand, hk, Option.some.injEq] at h
    rw [← h, hleaf]
    rfl

/-- The rule for a sign in front of an operand. -/
theorem unary_gives (hk : t.kind = .bang ∨ t.kind = .minus)
    (he : (Task.expr loops Power.unary ts).Gives e rest i) :
    (Task.operand loops t ts).Gives (.unary t t.literal e) rest i := by
  refine Task.gives_of_succ fun fuel s h => ?_
  rcases hk with hk | hk
  all_goals
    simp only [Task.run, operand, hk, Option.bind_eq_bind, Option.bind_eq_some_iff,
      Option.some.injEq] at h
    obtain ⟨e', he', rfl⟩ := h
    obtain rfl := he _ _ he'
    rfl

/-- The rule for an expression in parentheses. -/
theorem group_gives (hk : t.kind = .lparen) (hu : u.kind = .rparen)
    (he : (Task.expr loops Power.lowest ts).Gives e (u :: rest) i) :
    (Task.operand loops t ts).Gives e rest i := by
  refine Task.gives_of_succ fun fuel s h => ?_
  simp only [Task.run, operand, hk, Option.bind_eq_bind, Option.bind_eq_some_iff] at h
  obtain ⟨e', he', h⟩ := h
  obtain rfl := he _ _ he'
  simp only [expect?, if_pos hu, Option.some.injEq] at h
  exact h.symm

/-- The rule for a choice with its condition. -/
theorem choose_gives (hk : t.kind = .kwIf) (hc : (Task.condition loops ts).Gives (some c) mid i)
    (hw : (Task.choice loops t c mid).Gives e rest j) :
    (Task.operand loops t ts).Gives e rest (i + j) := by
  refine Task.gives_of_succ fun fuel s h => ?_
  simp only [Task.run, operand, hk, Option.bind_eq_bind, Option.bind_eq_some_iff] at h
  obtain ⟨c', hc', h⟩ := h
  obtain rfl := hc _ _ hc'
  simp only [Option.bind_eq_some_iff, Option.some.injEq] at h
  obtain ⟨w, hw', rfl⟩ := h
  obtain rfl := hw _ _ hw'
  simp [Step.after]

/-- The rule for a loop.  Its block is there, so the loop is not given up. -/
theorem loop_gives (hk : t.kind = .kwWhile) (hc : (Task.condition loops ts).Gives (some c) mid i)
    (hb : (Task.block (loops + 1) mid).Gives b rest j) (hm : b ≠ .missing) :
    (Task.operand loops t ts).Gives (.loop t c b) rest (i + j) := by
  refine Task.gives_of_succ fun fuel s h => ?_
  simp only [Task.run, operand, hk, Option.bind_eq_bind, Option.bind_eq_some_iff] at h
  obtain ⟨c', hc', h⟩ := h
  -- Whatever the call gives for the condition and the block, it is what they are read as.
  obtain rfl := hc _ _ hc'
  simp only [Option.bind_eq_some_iff] at h
  obtain ⟨b', hb', h⟩ := h
  obtain rfl := hb _ _ hb'
  cases b with
  | missing => exact absurd rfl hm
  | mk v ss =>
    simp only [Option.some.injEq] at h
    simp [← h]

/-- The rule for a function. -/
theorem fn_gives {names : List Ident} (hk : t.kind = .kwFunction) (hu : u.kind = .lparen)
    (hp : params ts = ⟨some names, mid, []⟩) (hb : (Task.block 0 mid).Gives b rest i)
    (hm : b ≠ .missing) :
    (Task.operand loops t (u :: ts)).Gives (.fn t (names.map some) b) rest i := by
  refine Task.gives_of_succ fun fuel s h => ?_
  simp only [Task.run, operand, hk, expect?, if_pos hu, hp, Option.bind_eq_bind,
    Option.bind_eq_some_iff] at h
  obtain ⟨b', hb', h⟩ := h
  obtain rfl := hb _ _ hb'
  cases b with
  | missing => exact absurd rfl hm
  | mk v ss =>
    simp only [Option.some.injEq] at h
    simp [← h]

/-- The rule for a token that does not bind tighter, where the left operand stays as it is. -/
theorem stop_gives (hs : Stops power ts) :
    (Task.operators loops power left ts).Gives left ts 0 := by
  refine Task.gives_of_succ fun fuel s h => ?_
  simp only [Task.run] at h
  cases ts with
  | nil =>
    rw [operators, Option.some.injEq] at h
    exact h.symm
  | cons t ts =>
    rw [operators, if_neg (Nat.not_lt.2 (hs t rfl)), Option.some.injEq] at h
    exact h.symm

/-- The rule for a call, which is the left operand of what comes next. -/
theorem call_gives (hp : power < Power.ofKind t.kind) (hk : t.kind = .lparen)
    (ha : (Task.args loops ts).Gives (some es) mid i)
    (hw : (Task.operators loops power (.call t left es) mid).Gives e rest j) :
    (Task.operators loops power left (t :: ts)).Gives e rest (i + j) := by
  refine Task.gives_of_succ fun fuel s h => ?_
  simp only [Task.run, operators, if_pos hp, if_pos hk, Option.bind_eq_bind,
    Option.bind_eq_some_iff, Option.some.injEq] at h
  obtain ⟨as, ha', w, hw', rfl⟩ := h
  obtain rfl := ha _ _ ha'
  obtain rfl := hw _ _ hw'
  simp [Step.after]

/-- The rule for an operator between operands. -/
theorem binary_gives (hp : power < Power.ofKind t.kind) (hk : t.kind ≠ .lparen)
    (hr : (Task.expr loops (Power.ofKind t.kind) ts).Gives r mid i)
    (hw : (Task.operators loops power (.binary t left t.literal r) mid).Gives e rest j) :
    (Task.operators loops power left (t :: ts)).Gives e rest (i + j) := by
  refine Task.gives_of_succ fun fuel s h => ?_
  simp only [Task.run, operators, if_pos hp, if_neg hk, Option.bind_eq_bind,
    Option.bind_eq_some_iff, Option.some.injEq] at h
  obtain ⟨r', hr', w, hw', rfl⟩ := h
  obtain rfl := hr _ _ hr'
  obtain rfl := hw _ _ hw'
  simp [Step.after]

/-- The rule for arguments of which there are none. -/
theorem noArgs_gives (hk : t.kind = .rparen) :
    (Task.args loops (t :: ts)).Gives (some []) ts 0 := by
  refine Task.gives_of_succ fun fuel s h => ?_
  simp only [Task.run, args, expect?, if_pos hk, Option.some.injEq] at h
  exact h.symm

/-- There is an argument where no closing parenthesis is. -/
theorem someArgs_gives (hn : expect? .rparen ts = none)
    (he : (Task.expr loops Power.lowest ts).Gives e mid i)
    (hes : (Task.moreArgs loops mid).Gives (some es) rest j) :
    (Task.args loops ts).Gives (some (e :: es)) rest (i + j) := by
  refine Task.gives_of_succ fun fuel s h => ?_
  simp only [Task.run, args, hn, Option.bind_eq_bind, Option.bind_eq_some_iff,
    Option.some.injEq] at h
  obtain ⟨e', he', es', hes', rfl⟩ := h
  obtain rfl := he _ _ he'
  obtain rfl := hes _ _ hes'
  simp [Step.after, Step.map]

/-- The rule for the parenthesis behind arguments. -/
theorem lastArg_gives (hk : t.kind = .rparen) :
    (Task.moreArgs loops (t :: ts)).Gives (some []) ts 0 := by
  refine Task.gives_of_succ fun fuel s h => ?_
  simp only [Task.run, moreArgs, hk, reduceCtorEq, if_false, if_true, Option.some.injEq] at h
  exact h.symm

/-- The rule for one more argument. -/
theorem nextArg_gives (hk : t.kind = .comma) (he : (Task.expr loops Power.lowest ts).Gives e mid i)
    (hes : (Task.moreArgs loops mid).Gives (some es) rest j) :
    (Task.moreArgs loops (t :: ts)).Gives (some (e :: es)) rest (i + j) := by
  refine Task.gives_of_succ fun fuel s h => ?_
  simp only [Task.run, moreArgs, if_pos hk, Option.bind_eq_bind, Option.bind_eq_some_iff,
    Option.some.injEq] at h
  obtain ⟨e', he', es', hes', rfl⟩ := h
  obtain rfl := he _ _ he'
  obtain rfl := hes _ _ hes'
  simp [Step.after, Step.map]

/-- The rule for a condition in its parentheses. -/
theorem condition_gives (hk : t.kind = .lparen) (hu : u.kind = .rparen)
    (he : (Task.expr loops Power.lowest ts).Gives e (u :: rest) i) :
    (Task.condition loops (t :: ts)).Gives (some e) rest i := by
  refine Task.gives_of_succ fun fuel s h => ?_
  simp only [Task.run, condition, expect?, if_pos hk, Option.bind_eq_bind,
    Option.bind_eq_some_iff] at h
  obtain ⟨e', he', h⟩ := h
  obtain rfl := he _ _ he'
  simp only [if_pos hu, Option.some.injEq] at h
  exact h.symm

/-- The rule for a choice without an alternative. -/
theorem oneWay_gives (ha : (Task.block loops ts).Gives a rest i) (hm : a ≠ .missing)
    (hr : peek rest ≠ .kwElse) :
    (Task.choice loops t c ts).Gives (.choice t c a .missing) rest i := by
  refine Task.gives_of_succ fun fuel s h => ?_
  simp only [Task.run, choice, Option.bind_eq_bind, Option.bind_eq_some_iff] at h
  obtain ⟨a', ha', h⟩ := h
  obtain rfl := ha _ _ ha'
  cases a with
  | missing => exact absurd rfl hm
  | mk v ss =>
    simp only [(expect?_eq_none (by simp)).2 hr, Option.some.injEq] at h
    exact h.symm

/-- The rule for a choice with one.  Both blocks are there, so it is not given up. -/
theorem twoWays_gives (hu : u.kind = .kwElse) (ha : (Task.block loops ts).Gives a (u :: mid) i)
    (hm : a ≠ .missing) (hb : (Task.block loops mid).Gives b rest j) (hm' : b ≠ .missing) :
    (Task.choice loops t c ts).Gives (.choice t c a b) rest (i + j) := by
  refine Task.gives_of_succ fun fuel s h => ?_
  simp only [Task.run, choice, Option.bind_eq_bind, Option.bind_eq_some_iff] at h
  obtain ⟨a', ha', h⟩ := h
  obtain rfl := ha _ _ ha'
  cases a with
  | missing => exact absurd rfl hm
  | mk v ss =>
    simp only [expect?, if_pos hu, Option.bind_eq_some_iff] at h
    obtain ⟨b', hb', h⟩ := h
    obtain rfl := hb _ _ hb'
    cases b with
    | missing => exact absurd rfl hm'
    | mk w ss' =>
      simp only [Option.some.injEq] at h
      simp [← h]

/-- The rule for a block. -/
theorem block_gives {ss : List Stmt} (hk : t.kind = .lbrace)
    (hb : (Task.body loops ts).Gives ss rest i) :
    (Task.block loops (t :: ts)).Gives (.mk t ss) rest i := by
  refine Task.gives_of_succ fun fuel s h => ?_
  simp only [Task.run, block, if_pos hk, Option.bind_eq_bind, Option.bind_eq_some_iff,
    Option.some.injEq] at h
  obtain ⟨ss', hs', rfl⟩ := h
  obtain rfl := hb _ _ hs'
  rfl

/-- The rule for the brace behind statements. -/
theorem close_gives (hk : t.kind = .rbrace) : (Task.body loops (t :: ts)).Gives [] ts 0 := by
  refine Task.gives_of_succ fun fuel s h => ?_
  simp only [Task.run, body, if_pos hk, Option.some.injEq] at h
  exact h.symm

/-- The rule for one more statement of a block. -/
theorem next_gives {st : Stmt} {ss : List Stmt} (hn : t.kind ≠ .rbrace)
    (hs : (Task.stmt loops t ts).Gives (some st) mid i)
    (hss : (Task.body loops mid).Gives ss rest j) :
    (Task.body loops (t :: ts)).Gives (st :: ss) rest (i + j) := by
  refine Task.gives_of_succ fun fuel s h => ?_
  simp only [Task.run, body, if_neg hn, Option.bind_eq_bind, Option.bind_eq_some_iff,
    Option.some.injEq] at h
  obtain ⟨st', hst', ss', hss', rfl⟩ := h
  obtain rfl := hs _ _ hst'
  obtain rfl := hss _ _ hss'
  simp [Step.after, Step.map]

/-- The rule for a binding. -/
theorem bind_gives {x y : Token} (hk : t.kind = .kwLet) (hx : x.kind = .ident)
    (hy : y.kind = .assign) (he : (Task.expr loops Power.lowest ts).Gives e rest i) :
    (Task.stmt loops t (x :: y :: ts)).Gives (some (.bind t (some (.ofToken x)) e))
      (skipSemicolon rest) i := by
  refine Task.gives_of_succ fun fuel s h => ?_
  simp only [Task.run, stmt, hk, if_pos hx, expect?, if_pos hy, Option.bind_eq_bind,
    Option.bind_eq_some_iff, Option.some.injEq] at h
  obtain ⟨e', he', rfl⟩ := h
  obtain rfl := he _ _ he'
  rfl

/-- The rule for a return without a value. -/
theorem bareReturn_gives (hk : t.kind = .kwReturn) (hr : endsReturn (peek ts) = true) :
    (Task.stmt loops t ts).Gives (some (.ret t .missing)) (skipSemicolon ts) 0 := by
  refine Task.gives_of_succ fun fuel s h => ?_
  simp only [Task.run, stmt_of_kwReturn hk, if_pos hr, Option.some.injEq] at h
  exact h.symm

/-- The rule for a return with one. -/
theorem valueReturn_gives (hk : t.kind = .kwReturn) (hr : endsReturn (peek ts) = false)
    (he : (Task.expr loops Power.lowest ts).Gives e rest i) :
    (Task.stmt loops t ts).Gives (some (.ret t e)) (skipSemicolon rest) i := by
  refine Task.gives_of_succ fun fuel s h => ?_
  simp only [Task.run, stmt_of_kwReturn hk, hr, Bool.false_eq_true, if_false,
    Option.bind_eq_some_iff, Option.some.injEq] at h
  obtain ⟨e', he', rfl⟩ := h
  obtain rfl := he _ _ he'
  rfl

/-- The rule for a break, which is a fault where no loop is open. -/
theorem brk_gives (hk : t.kind = .kwBreak) :
    (Task.stmt loops t ts).Gives (some (.brk t)) (skipSemicolon ts)
      (if loops = 0 then 1 else 0) := by
  refine Task.gives_of_succ fun fuel s h => ?_
  rw [Task.run, stmt_of_kwBreak hk, Option.some.injEq] at h
  rw [← h]
  split <;> rfl

/-- The rule for a statement that starts with none of the keywords. -/
theorem exprStmt_gives (hk : t.kind ≠ .kwLet ∧ t.kind ≠ .kwReturn ∧ t.kind ≠ .kwBreak)
    (he : (Task.expr loops Power.lowest (t :: ts)).Gives e rest i) (hm : e.isMissing = false) :
    (Task.stmt loops t ts).Gives (some (.expr t e)) (skipSemicolon rest) i := by
  refine Task.gives_of_succ fun fuel s h => ?_
  rw [Task.run, stmt_of_expr hk.1 hk.2.1 hk.2.2, Option.bind_eq_some_iff] at h
  obtain ⟨e', he', h⟩ := h
  obtain rfl := he _ _ he'
  simp only [hm, Bool.false_eq_true, if_false, Option.some.injEq] at h
  exact h.symm

end

/-! ### The rules and the calls -/

namespace Reads

/-- **The rules say what the call gives**, if it gives anything under its bound.  The converse of
    `reads_of_run`: a call without faults makes just the calls that its rule has as premises. -/
theorem gives {k : Task} {v : k.Result} {rest : List Token} {n : Nat} (h : Reads k v rest n) :
    k.Gives v rest n := by
  -- What a rule leaves unsaid about the next token follows from the readings of its parts.
  induction h with
  | expr hs _ _ ihl ihw => exact expr_gives hs ihl ihw
  | leaf h => exact leaf_gives h
  | unary hk _ ih => exact unary_gives hk ih
  | group hk hu _ ih => exact group_gives hk hu ih
  | choose hk _ _ ihc ihw => exact choose_gives hk ihc ihw
  | loop hk _ hb ihc ihb => exact loop_gives hk ihc ihb hb.present
  | fn hk hu hp hb ihb => exact fn_gives hk hu hp ihb hb.present
  | stop hs => exact stop_gives hs
  | call hp hk _ _ iha ihw => exact call_gives hp hk iha ihw
  | binary hp hk _ _ ihr ihw => exact binary_gives hp hk ihr ihw
  | noArgs hk => exact noArgs_gives hk
  | someArgs he _ ihe ihes => exact someArgs_gives he.expect?_rparen ihe ihes
  | lastArg hk => exact lastArg_gives hk
  | nextArg hk _ _ ihe ihes => exact nextArg_gives hk ihe ihes
  | condition hk hu _ ih => exact condition_gives hk hu ih
  | oneWay ha hr iha => exact oneWay_gives iha ha.present hr
  | twoWays hu ha hb iha ihb => exact twoWays_gives hu iha ha.present ihb hb.present
  | block hk _ ih => exact block_gives hk ih
  | close hk => exact close_gives hk
  | next hs _ ihs ihss => exact next_gives hs.head_ne_rbrace ihs ihss
  | bind hk hx hy _ ih => exact bind_gives hk hx hy ih
  | bareReturn hk hr => exact bareReturn_gives hk hr
  | valueReturn hk he ih => exact valueReturn_gives hk he.not_endsReturn ih
  | brk hk => exact brk_gives hk
  | exprStmt he ih => exact exprStmt_gives he.head_ne_keyword ih he.not_isMissing

/-- A reading leaves tokens of those it got. -/
theorem rest_suffix {k : Task} {v : k.Result} {rest : List Token} {n : Nat}
    (h : Reads k v rest n) : rest <:+ k.remaining := by
  obtain ⟨s, hs, hr⟩ := Task.run_total k.need k (Nat.le_refl _)
  rw [h.gives _ _ hs] at hr
  exact hr

end Reads

/-- A source that can be read by the rules gives nothing else. -/
theorem ReadsAll.program_unique {ts : List Token} {ss : List Stmt} {n : Nat}
    (h : ReadsAll ts ss n) : ∀ {fuel : Nat} {s : Step (List Stmt)}, program fuel ts = some s →
      s = ⟨ss, [], List.replicate n .strayBreak⟩ := by
  induction h with
  | nil =>
    intro fuel s h
    cases fuel with
    | zero => exact absurd h (by simp [program])
    | succ fuel =>
      rw [program, Option.some.injEq] at h
      exact h.symm
  | cons hs _ ih =>
    intro fuel s h
    cases fuel with
    | zero => exact absurd h (by simp [program])
    | succ fuel =>
      -- The first statement is given as it is read, and by induction the others are.
      simp only [program, Option.bind_eq_bind, Option.bind_eq_some_iff, Option.some.injEq] at h
      obtain ⟨st, hst, ss, hss, rfl⟩ := h
      obtain rfl := hs.gives _ _ hst
      obtain rfl := ih hss
      simp [Step.after, Step.map]

end Parser

/-- **A source that can be read by the rules is read so.** -/
theorem parseTokens_eq_of_readsAll {ts : List Token} {ss : List Stmt} {n : Nat}
    (h : Parser.ReadsAll ts ss n) : parseTokens ts = ⟨⟨ss⟩, List.replicate n .strayBreak⟩ := by
  obtain ⟨s, hs, -⟩ := Parser.program_total (Nat.le_refl (Parser.enough ts.length))
  rw [parseTokens, hs, h.program_unique hs]

end Incognita
