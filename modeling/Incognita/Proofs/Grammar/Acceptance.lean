import Incognita.Proofs.Grammar.Greedy
import Incognita.Proofs.Reading.Exact
import Incognita.Proofs.Shape

namespace Incognita

/-!
# Grammar — the reader accepts exactly the sentences

The reader and the machine of `Grammar/Greedy.lean` take the same tokens: wherever the machine
accepts what is left, the call that stands there can be read by the rules, and the machine
accepts what the call leaves.

* `Parser.Task.Ready`, `Parser.Task.Left` — where the machine stands when a call starts and
  when it is over;
* `Parser.readsTo` — what the machine accepts can be read by the rules;
* `parse_clean_iff` — a source has no faults exactly if it is a sentence whose integers are in
  range and whose tree has no stray break.
-/

namespace Parser

open Grammar

/-! ### Where an expression ends -/

/-- A token that stops an expression at the lowest power is neither an operator nor the parenthesis
    of a call. -/
theorem not_isBinary_of_stops {t : Token} {ts : List Token} (h : Stops Power.lowest (t :: ts)) :
    isBinary t.kind = false ∧ t.kind ≠ .lparen := by
  have hle : Power.ofKind t.kind ≤ Power.lowest := h t rfl
  cases hk : t.kind <;> simp [hk, Power.ofKind, Power.lowest] at hle <;> exact ⟨rfl, by simp⟩

end Parser

namespace Grammar.Accepts

open Incognita.Parser (Stops)

/-! ### What the machine does behind an expression that has ended -/

variable {st : List Frame} {b : Bool} {ts : List Token}

/-- Behind the expression in a group there is the parenthesis that closes it. -/
theorem close_group (h : Accepts .after (.group :: st) ts) (hs : Stops Power.lowest ts) :
    ∃ u rest, ts = u :: rest ∧ u.kind = .rparen ∧ Accepts .after st rest := by
  cases h with
  | closeGroup hk h => exact ⟨_, _, rfl, hk, h⟩
  | binary hk => simp [Parser.not_isBinary_of_stops hs] at hk
  | noArgs hk | someArgs hk => exact absurd hk (Parser.not_isBinary_of_stops hs).2

/-- Behind a condition there is its closing parenthesis, and then a block. -/
theorem close_cond (h : Accepts .after (.cond b :: st) ts) (hs : Stops Power.lowest ts) :
    ∃ u rest, ts = u :: rest ∧ u.kind = .rparen ∧ Accepts .brace (.block b :: st) rest := by
  cases h with
  | closeCond hk h => exact ⟨_, _, rfl, hk, h⟩
  | binary hk => simp [Parser.not_isBinary_of_stops hs] at hk
  | noArgs hk | someArgs hk => exact absurd hk (Parser.not_isBinary_of_stops hs).2

/-- Behind the expression of a statement the machine is between statements again, with a semicolon
    passed over if one comes. -/
theorem close_stmt (h : Accepts .after (.stmt :: st) ts) (hs : Stops Power.lowest ts) :
    Accepts .stmts st (Parser.skipSemicolon ts) := by
  cases h with
  | semicolon hk h => rwa [Parser.skipSemicolon, if_pos hk]
  | juxtapose _ _ hp h =>
    cases ts with
    | nil => exact h
    | cons t ts =>
      rw [Parser.peek] at hp
      rwa [Parser.skipSemicolon, if_neg hp]
  | binary hk => simp [Parser.not_isBinary_of_stops hs] at hk
  | noArgs hk | someArgs hk => exact absurd hk (Parser.not_isBinary_of_stops hs).2

end Grammar.Accepts

namespace Parser

open Grammar

/-! ### The calls and the machine -/

/-- Where the machine stands when a call starts.  The flag tells the blocks of a choice, behind
    which an alternative may come. -/
def Task.Ready (st : List Frame) (b : Bool) : Task → Prop
  | .expr _ power ts => Power.lowest ≤ power ∧ Accepts .operand st ts
  | .operand _ t ts => Accepts .operand st (t :: ts)
  | .operators _ power _ ts => Power.lowest ≤ power ∧ Accepts .after st ts
  | .args _ ts => ∃ t, t.kind = .lparen ∧ Accepts .after st (t :: ts)
  | .moreArgs _ ts => Accepts .after (.args :: st) ts ∧ Stops Power.lowest ts
  | .condition _ ts => Accepts .paren (.cond b :: st) ts
  | .choice _ _ _ ts => Accepts .brace (.block true :: st) ts
  | .block _ ts => Accepts .brace (.block b :: st) ts
  | .body _ ts => Accepts .stmts (.block b :: st) ts
  | .stmt _ t ts => t.kind ≠ .rbrace ∧ Accepts .stmts st (t :: ts)

/-- Where the machine stands when the call is over. -/
def Task.Left (st : List Frame) (b : Bool) : Task → List Token → Prop
  | .condition .., rest => Accepts .brace (.block b :: st) rest
  | .block .., rest | .body .., rest => Accepts .closed (.block b :: st) rest
  | .stmt .., rest => Accepts .stmts st rest
  | _, rest => Accepts .after st rest

/-- The call can be read by the rules, and the machine accepts what it leaves. -/
def Task.ReadsTo (st : List Frame) (b : Bool) (k : Task) : Prop :=
  ∃ v rest n, Reads k v rest n ∧ k.Left st b rest

/-- Every call can be read for which `m` steps are enough. -/
def AllRead (m : Nat) : Prop :=
  ∀ (k : Task) (st : List Frame) (b : Bool), k.need ≤ m → k.Ready st b → k.ReadsTo st b

section

variable {m loops : Nat} {power : Power} {t : Token} {ts : List Token} {st : List Frame} {b : Bool}

/-- An expression is its first operand and the operators behind it. -/
theorem expr_readsTo (ih : AllRead m) (hm : (Task.expr loops power ts).need ≤ m + 1)
    (h : (Task.expr loops power ts).Ready st b) : (Task.expr loops power ts).ReadsTo st b := by
  obtain ⟨hp, h⟩ := h
  cases ts with
  | nil => cases h
  | cons t ts =>
    simp only [Task.need, List.length_cons] at hm
    obtain ⟨left, mid, i, hl, hmid⟩ :=
    ih (.operand loops t ts) st b (by simp only [Task.need]; omega) h
    have hlen : mid.length ≤ ts.length := hl.rest_suffix.length_le
    obtain ⟨e, rest, j, hw, hrest⟩ := ih (.operators loops power left mid) st b
      (by simp only [Task.need]; omega) ⟨hp, hmid⟩
    exact ⟨e, rest, i + j, .expr h.startsExpr_head hl hw, hrest⟩

/-- A token that is an expression by itself has a tree, an integer because it is in range. -/
theorem leaf_of_isLeaf (hk : isLeaf t.kind = true) (hr : t.InRange) : ∃ e, leaf? t = some e := by
  cases ht : t.kind with
  | int =>
    have hlt : Text.natOfDigits t.literal.toList < Nat.pow 2 63 := hr ht
    exact ⟨_, by simp only [leaf?, ht, Text.int64OfDigits?, if_pos hlt, Option.map_some]; rfl⟩
  | ident | string | kwTrue | kwFalse => exact ⟨_, by simp only [leaf?, ht]; rfl⟩
  | _ => simp [ht, isLeaf] at hk

/-- A condition, read in full. -/
theorem condition_reads (ih : AllRead m) (hm : (Task.condition loops ts).need ≤ m)
    (h : Accepts .paren (.cond b :: st) ts) :
    ∃ c mid n, Reads (.condition loops ts) (some c) mid n ∧
      Accepts .brace (.block b :: st) mid ∧ mid.length ≤ ts.length := by
  obtain ⟨c, mid, n, hc, hmid⟩ := ih (.condition loops ts) st b hm h
  obtain ⟨c, rfl⟩ := Option.ne_none_iff_exists'.1 hc.present
  exact ⟨c, mid, n, hc, hmid, hc.rest_suffix.length_le⟩

/-- A block behind which no alternative comes. -/
theorem block_reads (ih : AllRead m) (hm : (Task.block loops ts).need ≤ m)
    (h : Accepts .brace (.block false :: st) ts) :
    ∃ v rest n, Reads (.block loops ts) v rest n ∧ Accepts .after st rest := by
  obtain ⟨v, rest, n, hv, hrest⟩ := ih (.block loops ts) st false hm h
  cases hrest with
  | closed _ hrest => exact ⟨v, rest, n, hv, hrest⟩

/-- Each way in which the machine takes an operand is a rule of `Reads`. -/
theorem operand_readsTo (ih : AllRead m) (hm : (Task.operand loops t ts).need ≤ m + 1)
    (h : (Task.operand loops t ts).Ready st b) : (Task.operand loops t ts).ReadsTo st b := by
  simp only [Task.need] at hm
  cases h with
  | leaf hk hr h =>
    obtain ⟨e, he⟩ := leaf_of_isLeaf hk hr
    exact ⟨e, ts, 0, .leaf he, h⟩
  | unary hk h =>
    obtain ⟨e, rest, n, he, hrest⟩ := ih (.expr loops Power.unary ts) st b
      (by simp only [Task.need]; omega) ⟨lowest_le_unary, h⟩
    exact ⟨_, rest, n, .unary hk he, hrest⟩
  | group hk h =>
    obtain ⟨e, mid, n, he, hmid⟩ := ih (.expr loops Power.lowest ts) (.group :: st) b
      (by simp only [Task.need]; omega) ⟨Nat.le_refl _, h⟩
    -- Where the reader stops no operator comes, so the machine has to close the parenthesis.
    obtain ⟨u, rest, rfl, hu, hrest⟩ := hmid.close_group he.stops
    exact ⟨e, rest, n, .group hk hu he, hrest⟩
  | choice hk h =>
    obtain ⟨c, mid, i, hc, hmid, hlen⟩ := condition_reads ih (by simp only [Task.need]; omega) h
    obtain ⟨e, rest, j, he, hrest⟩ := ih (.choice loops t c mid) st b
      (by simp only [Task.need]; omega) hmid
    exact ⟨e, rest, i + j, .choose hk hc he, hrest⟩
  | loop hk h =>
    obtain ⟨c, mid, i, hc, hmid, hlen⟩ := condition_reads ih (by simp only [Task.need]; omega) h
    obtain ⟨v, rest, j, hv, hrest⟩ := block_reads ih (by simp only [Task.need]; omega) hmid
    exact ⟨_, rest, i + j, .loop hk hc hv, hrest⟩
  | @fn _ _ u ts names mid hk hu hp h =>
    -- The parameters are read by the same function here and there.
    have hlen : mid.length ≤ ts.length := by
      have hs := (params_suffix ts).length_le
      rwa [hp] at hs
    rw [List.length_cons] at hm
    obtain ⟨v, rest, n, hv, hrest⟩ := block_reads ih (by simp only [Task.need]; omega) h
    exact ⟨_, rest, n, .fn hk hu hp hv, hrest⟩

/-- The machine takes an operator as one, and a parenthesis as a call. -/
theorem after_operator (hlt : Power.lowest < Power.ofKind t.kind) (hk : t.kind ≠ .lparen)
    (h : Accepts .after st (t :: ts)) : Accepts .operand st ts := by
  have hb : isBinary t.kind = true := isBinary_of_lt (Nat.le_refl _) hlt hk
  cases h with
  | binary _ h => exact h
  | noArgs hu | someArgs hu => exact absurd hu hk
  | closeGroup hu | closeArgs hu | nextArg hu | closeCond hu | semicolon hu =>
    simp [hu, isBinary] at hb
  | juxtapose hu => simp [peek, hb] at hu

/-- Operators go on as long as the next token binds tighter, where the machine is greedy too. -/
theorem operators_readsTo (ih : AllRead m) {left : Expr}
    (hm : (Task.operators loops power left ts).need ≤ m + 1)
    (h : (Task.operators loops power left ts).Ready st b) :
    (Task.operators loops power left ts).ReadsTo st b := by
  obtain ⟨hp, h⟩ := h
  cases ts with
  | nil => exact ⟨left, [], 0, .stop (by simp [Stops]), h⟩
  | cons t ts =>
    simp only [Task.need, List.length_cons] at hm
    -- The machine knows of no powers: it takes every operator, and the reader leaves some to the
    -- calls that wait for it.
    by_cases hlt : power < Power.ofKind t.kind
    · by_cases hk : t.kind = .lparen
      · obtain ⟨es, mid, i, ha, hmid⟩ := ih (.args loops ts) st b (by simp only [Task.need]; omega)
          ⟨t, hk, h⟩
        obtain ⟨es, rfl⟩ := Option.ne_none_iff_exists'.1 ha.present
        have hlen : mid.length ≤ ts.length := ha.rest_suffix.length_le
        obtain ⟨e, rest, j, hw, hrest⟩ := ih (.operators loops power (.call t left es) mid) st b
          (by simp only [Task.need]; omega) ⟨hp, hmid⟩
        exact ⟨e, rest, i + j, .call hlt hk ha hw, hrest⟩
      · obtain ⟨r, mid, i, hr, hmid⟩ := ih (.expr loops (Power.ofKind t.kind) ts) st b
          (by simp only [Task.need]; omega)
          ⟨lowest_le_ofKind _, after_operator (Nat.lt_of_le_of_lt hp hlt) hk h⟩
        have hlen : mid.length ≤ ts.length :=
          (hr.rest_suffix.trans (List.tail_suffix ts)).length_le
        obtain ⟨e, rest, j, hw, hrest⟩ := ih
          (.operators loops power (.binary t left t.literal r) mid) st b
          (by simp only [Task.need]; omega) ⟨hp, hmid⟩
        exact ⟨e, rest, i + j, .binary hlt hk hr hw, hrest⟩
    · refine ⟨left, t :: ts, 0, .stop ?_, h⟩
      rintro u ⟨⟩
      exact Nat.le_of_not_lt hlt

/-- An argument and the ones behind it. -/
theorem exprs_reads (ih : AllRead m) (hm : 4 * ts.length + 1 ≤ m)
    (h : Accepts .operand (.args :: st) ts) :
    ∃ e mid es rest i j, Reads (.expr loops Power.lowest ts) e mid i ∧
      Reads (.moreArgs loops mid) (some es) rest j ∧ Accepts .after st rest := by
  obtain ⟨e, mid, i, he, hmid⟩ := ih (.expr loops Power.lowest ts) (.args :: st) true hm
    ⟨Nat.le_refl _, h⟩
  have hlen : mid.length ≤ ts.length := (he.rest_suffix.trans (List.tail_suffix ts)).length_le
  obtain ⟨es, rest, j, hes, hrest⟩ := ih (.moreArgs loops mid) st true
    (by simp only [Task.need]; omega) ⟨hmid, he.stops⟩
  obtain ⟨es, rfl⟩ := Option.ne_none_iff_exists'.1 hes.present
  exact ⟨e, mid, es, rest, i, j, he, hes, hrest⟩

/-- Arguments are read up to their parenthesis, which may follow at once. -/
theorem args_readsTo (ih : AllRead m) (hm : (Task.args loops ts).need ≤ m + 1)
    (h : (Task.args loops ts).Ready st b) : (Task.args loops ts).ReadsTo st b := by
  obtain ⟨t, hk, h⟩ := h
  simp only [Task.need] at hm
  cases h with
  | noArgs _ hu h => exact ⟨_, _, 0, .noArgs hu, h⟩
  | someArgs _ h =>
    obtain ⟨e, mid, es, rest, i, j, he, hes, hrest⟩ := exprs_reads ih (by omega) h
    exact ⟨_, rest, i + j, .someArgs he hes, hrest⟩
  | binary hb => simp [hk, isBinary] at hb
  | closeGroup hu | closeArgs hu | nextArg hu | closeCond hu | semicolon hu => simp [hk] at hu
  | juxtapose _ hu => exact absurd hk hu

/-- Behind an argument there is a comma with another one, or the parenthesis. -/
theorem moreArgs_readsTo (ih : AllRead m) (hm : (Task.moreArgs loops ts).need ≤ m + 1)
    (h : (Task.moreArgs loops ts).Ready st b) : (Task.moreArgs loops ts).ReadsTo st b := by
  obtain ⟨h, hs⟩ := h
  simp only [Task.need] at hm
  cases h with
  | closeArgs hk h => exact ⟨_, _, 0, .lastArg hk, h⟩
  | nextArg hk h =>
    rw [List.length_cons] at hm
    obtain ⟨e, mid, es, rest, i, j, he, hes, hrest⟩ := exprs_reads ih (by omega) h
    exact ⟨_, rest, i + j, .nextArg hk he hes, hrest⟩
  | binary hk => simp [not_isBinary_of_stops hs] at hk
  | noArgs hk | someArgs hk => exact absurd hk (not_isBinary_of_stops hs).2

/-- A condition is read with both of its parentheses. -/
theorem condition_readsTo (ih : AllRead m) (hm : (Task.condition loops ts).need ≤ m + 1)
    (h : (Task.condition loops ts).Ready st b) : (Task.condition loops ts).ReadsTo st b := by
  simp only [Task.need] at hm
  cases h with
  | @openCond _ _ t ts hk h =>
    rw [List.length_cons] at hm
    obtain ⟨e, mid, n, he, hmid⟩ := ih (.expr loops Power.lowest ts) (.cond b :: st) b
      (by simp only [Task.need]; omega) ⟨Nat.le_refl _, h⟩
    obtain ⟨u, rest, rfl, hu, hrest⟩ := hmid.close_cond he.stops
    exact ⟨_, rest, n, .condition hk hu he, hrest⟩

/-- Behind the first block of a choice there may be an alternative. -/
theorem choice_readsTo (ih : AllRead m) {c : Expr} (hm : (Task.choice loops t c ts).need ≤ m + 1)
    (h : (Task.choice loops t c ts).Ready st b) : (Task.choice loops t c ts).ReadsTo st b := by
  simp only [Task.need] at hm
  obtain ⟨a, mid, i, ha, hmid⟩ := ih (.block loops ts) st true (by simp only [Task.need]; omega) h
  have hlen : mid.length ≤ ts.length := ha.rest_suffix.length_le
  -- An alternative is taken if and only if one comes, by both.
  cases hmid with
  | closed hr hmid => exact ⟨_, mid, i, .oneWay ha hr, hmid⟩
  | alternative hu hmid =>
    rw [List.length_cons] at hlen
    obtain ⟨v, rest, j, hv, hrest⟩ := block_reads ih (by simp only [Task.need]; omega) hmid
    exact ⟨_, rest, i + j, .twoWays hu ha hv, hrest⟩

/-- A block starts with its brace. -/
theorem block_readsTo (ih : AllRead m) (hm : (Task.block loops ts).need ≤ m + 1)
    (h : (Task.block loops ts).Ready st b) : (Task.block loops ts).ReadsTo st b := by
  simp only [Task.need] at hm
  cases h with
  | @openBlock _ _ t ts hk h =>
    rw [List.length_cons] at hm
    obtain ⟨ss, rest, n, hss, hrest⟩ := ih (.body loops ts) st b (by simp only [Task.need]; omega) h
    exact ⟨_, rest, n, .block hk hss, hrest⟩

/-- Statements of a block are read up to its brace. -/
theorem body_readsTo (ih : AllRead m) (hm : (Task.body loops ts).need ≤ m + 1)
    (h : (Task.body loops ts).Ready st b) : (Task.body loops ts).ReadsTo st b := by
  cases ts with
  | nil => cases h
  | cons t ts =>
    simp only [Task.need, List.length_cons] at hm
    -- A brace starts no statement, so the machine can only have closed the block with it.
    by_cases hk : t.kind = .rbrace
    · cases h with
      | closeBlock _ h => exact ⟨_, ts, 0, .close hk, h⟩
      | bind hu | valueReturn hu | bareReturn hu | lastReturn hu | brkEnding hu | brk hu =>
        simp [hk] at hu
      | exprStmt hs => simp [hk, startsExpr] at hs
    · obtain ⟨s, mid, i, hs, hmid⟩ := ih (.stmt loops t ts) (.block b :: st) b
        (by simp only [Task.need]; omega) ⟨hk, h⟩
      obtain ⟨s, rfl⟩ := Option.ne_none_iff_exists'.1 hs.present
      have hlen : mid.length ≤ ts.length := hs.rest_suffix.length_le
      obtain ⟨ss, rest, j, hss, hrest⟩ := ih (.body loops mid) st b
        (by simp only [Task.need]; omega) hmid
      exact ⟨_, rest, i + j, .next hs hss, hrest⟩

/-- The expression at the end of a statement, with the semicolon behind it. -/
theorem stmt_expr_reads (ih : AllRead m) (hm : 4 * ts.length + 1 ≤ m)
    (h : Accepts .operand (.stmt :: st) ts) :
    ∃ e rest n, Reads (.expr loops Power.lowest ts) e rest n ∧
      Accepts .stmts st (skipSemicolon rest) := by
  obtain ⟨e, rest, n, he, hrest⟩ := ih (.expr loops Power.lowest ts) (.stmt :: st) true hm
    ⟨Nat.le_refl _, h⟩
  exact ⟨e, rest, n, he, hrest.close_stmt he.stops⟩

/-- Each way in which the machine takes a statement is a rule of `Reads`. -/
theorem stmt_readsTo (ih : AllRead m) (hm : (Task.stmt loops t ts).need ≤ m + 1)
    (h : (Task.stmt loops t ts).Ready st b) : (Task.stmt loops t ts).ReadsTo st b := by
  obtain ⟨hb, h⟩ := h
  simp only [Task.need] at hm
  cases h with
  | closeBlock hk => exact absurd hk hb
  | bind hk hx ha h =>
    simp only [List.length_cons] at hm
    obtain ⟨e, rest, n, he, hrest⟩ := stmt_expr_reads ih (by omega) h
    exact ⟨_, _, n, .bind hk hx ha he, hrest⟩
  | valueReturn hk h =>
    obtain ⟨e, rest, n, he, hrest⟩ := stmt_expr_reads ih (by omega) h
    exact ⟨_, _, n, .valueReturn hk he, hrest⟩
  | @bareReturn _ _ u ts hk hu h =>
    refine ⟨_, _, 0, .bareReturn hk (by simp [peek, hu, endsReturn]), ?_⟩
    rwa [skipSemicolon, if_pos hu]
  -- Where a block or the source ends there is no semicolon to pass over.
  | lastReturn hk hr h =>
    refine ⟨_, _, 0, .bareReturn hk (by rcases hr with hr | hr <;> simp [hr, endsReturn]), ?_⟩
    cases ts with
    | nil => exact h
    | cons u ts =>
      have hu : u.kind ≠ .semicolon := by rcases hr with hr | hr <;> simp_all [peek]
      rwa [skipSemicolon, if_neg hu]
  | brkEnding hk hu h =>
    refine ⟨_, _, _, .brk hk, ?_⟩
    rwa [skipSemicolon, if_pos hu]
  | brk hk hs h =>
    refine ⟨_, _, _, .brk hk, ?_⟩
    cases ts with
    | nil => exact h
    | cons u ts =>
      rw [peek] at hs
      rwa [skipSemicolon, if_neg hs]
  | exprStmt hs h =>
    obtain ⟨e, rest, n, he, hrest⟩ := stmt_expr_reads ih (by rw [List.length_cons]; omega) h
    exact ⟨_, _, n, .exprStmt he, hrest⟩

end

/-- **What the machine accepts can be read by the rules.**  By induction on the number of steps.  A
    phrase on top of the stack is read first, and what is left of the stack is accepted from where
    it ends. -/
theorem readsTo (m : Nat) : AllRead m := by
  induction m with
  | zero =>
    intro k st b hm
    -- No call can do without any step.
    cases k <;> simp [Task.need] at hm
  | succ m ih =>
    intro k st b hm h
    cases k with
    | expr => exact expr_readsTo ih hm h
    | operand => exact operand_readsTo ih hm h
    | operators => exact operators_readsTo ih hm h
    | args => exact args_readsTo ih hm h
    | moreArgs => exact moreArgs_readsTo ih hm h
    | condition => exact condition_readsTo ih hm h
    | choice => exact choice_readsTo ih hm h
    | block => exact block_readsTo ih hm h
    | body => exact body_readsTo ih hm h
    | stmt => exact stmt_readsTo ih hm h

/-- A source that the machine accepts can be read by the rules. -/
theorem readsAll_of_accepts (m : Nat) {ts : List Token} (hm : ts.length ≤ m)
    (h : Accepts .stmts [] ts) : ∃ ss n, ReadsAll ts ss n := by
  induction m generalizing ts with
  | zero =>
    obtain rfl := List.eq_nil_of_length_eq_zero (Nat.le_zero.1 hm)
    exact ⟨[], 0, .nil⟩
  | succ m ih =>
    cases ts with
    | nil => exact ⟨[], 0, .nil⟩
    | cons t ts =>
      -- At the top no block is open, so a closing brace cannot come.
      have hb : t.kind ≠ .rbrace := by
        intro hk
        cases h with
        | bind hu | valueReturn hu | bareReturn hu | lastReturn hu | brkEnding hu | brk hu =>
          simp [hk] at hu
        | exprStmt hs => simp [hk, startsExpr] at hs
      obtain ⟨s, rest, i, hs, hrest⟩ := readsTo _ (.stmt 0 t ts) [] true (Nat.le_refl _) ⟨hb, h⟩
      obtain ⟨s, rfl⟩ := Option.ne_none_iff_exists'.1 hs.present
      have hlen : rest.length ≤ ts.length := hs.rest_suffix.length_le
      rw [List.length_cons] at hm
      obtain ⟨ss, j, hss⟩ := ih (by omega) hrest
      exact ⟨s :: ss, i + j, .cons hs hss⟩

end Parser

/-! ### Sources -/

open Grammar in
/-- **The reader accepts exactly its grammar.**  Faults other than stray breaks are met exactly
    if the tokens are no sentence or an integer is out of range. -/
theorem parseTokens_strayBreaks_iff (ts : List Token) :
    (∀ d ∈ (parseTokens ts).diagnostics, d = .strayBreak) ↔
      Sentence ts ∧ ∀ t ∈ ts, t.InRange := by
  constructor
  · intro h
    have hr := readsAll_of_parseTokens h
    exact ⟨hr.sentence, hr.inRange⟩
  · rintro ⟨hs, hr⟩
    obtain ⟨ss, n, hread⟩ := Parser.readsAll_of_accepts ts.length (Nat.le_refl _)
      (hs.taken hr [] .finish)
    rw [parseTokens_eq_of_readsAll hread]
    exact fun d hd => List.eq_of_mem_replicate hd

/-- **A source has no faults** exactly if its tokens are a sentence of the grammar, its integers
    are below `2 ^ 63`, and every break of the tree that is read stands in the body of a loop of
    the same function. -/
theorem parse_clean_iff (source : String) :
    (parse source).diagnostics = [] ↔
      Grammar.Sentence (tokenize source.toList) ∧
      (∀ t ∈ tokenize source.toList, t.InRange) ∧
      (parse source).program.strayBreaks = 0 := by
  simp only [parse]
  constructor
  · intro h
    have hstray : ∀ d ∈ (parseTokens (tokenize source.toList)).diagnostics, d = .strayBreak := by
      simp [h]
    obtain ⟨hs, hr⟩ := (parseTokens_strayBreaks_iff _).1 hstray
    refine ⟨hs, hr, ?_⟩
    rw [strayBreaks_of_parseTokens hstray, h, List.length_nil]
  · rintro ⟨hs, hr, hb⟩
    have hstray := (parseTokens_strayBreaks_iff _).2 ⟨hs, hr⟩
    rw [strayBreaks_of_parseTokens hstray] at hb
    exact List.eq_nil_of_length_eq_zero hb

end Incognita
