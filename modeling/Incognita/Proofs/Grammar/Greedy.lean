import Incognita.Proofs.Grammar.Derivation

namespace Incognita

/-!
# Grammar — reading greedily never fails on a sentence

The grammar leaves open where a statement ends, and the reader always takes the longest
expression.  To see that this costs no sentence, both are compared with a machine that reads
tokens one by one, with a stack of what is open:

* `Grammar.Frame`, `Grammar.Mode` — what is open, and what has to come next;
* `Grammar.Accepts mode stack ts` — the machine reads `ts` to the end.  Behind an operand it
  goes on with an operator or a call whenever one comes, so it is greedy too;
* `Grammar.Accepts.widen` — a parenthesis that may be an argument list accepts whatever one
  around a single expression does.  With it, `Grammar.Accepts.after_of_stmts`: what can be read
  as further statements can be read behind an expression as well;
* `Grammar.Derives.taken` — hence the machine accepts every phrase in front of what it accepts.

That the reader takes whatever the machine accepts is `Grammar/Acceptance.lean`.
-/

namespace Grammar

/-- What is open around the place where the machine is. -/
inductive Frame where
  /-- A parenthesis around one expression. -/
  | group
  /-- The parenthesis of the arguments of a call. -/
  | args
  /-- The condition of a choice (`true`) or of a loop. -/
  | cond (choice : Bool)
  /-- A block, behind which an alternative may come (`true`) or not. -/
  | block (choice : Bool)
  /-- A statement that ends with its expression. -/
  | stmt

/-- What has to come next. -/
inductive Mode where
  /-- An operand. -/
  | operand
  /-- An operator, or what follows an expression. -/
  | after
  /-- The opening parenthesis of a condition. -/
  | paren
  /-- The opening brace of a block. -/
  | brace
  /-- Statements. -/
  | stmts
  /-- What follows a closing brace. -/
  | closed

/-- The machine reads the tokens to the end. -/
inductive Accepts : Mode → List Frame → List Token → Prop
  /-- A name, a string, a truth value or an integer in range is an operand. -/
  | leaf {st t ts} (hk : isLeaf t.kind = true) (hr : t.InRange) (h : Accepts .after st ts) :
      Accepts .operand st (t :: ts)
  /-- A sign in front of an operand is part of it. -/
  | unary {st t ts} (hk : t.kind = .bang ∨ t.kind = .minus) (h : Accepts .operand st ts) :
      Accepts .operand st (t :: ts)
  /-- A parenthesis where an operand is due is around an expression. -/
  | group {st t ts} (hk : t.kind = .lparen) (h : Accepts .operand (.group :: st) ts) :
      Accepts .operand st (t :: ts)
  /-- A choice starts with its condition. -/
  | choice {st t ts} (hk : t.kind = .kwIf) (h : Accepts .paren (.cond true :: st) ts) :
      Accepts .operand st (t :: ts)
  /-- So does a loop, behind whose block no alternative comes. -/
  | loop {st t ts} (hk : t.kind = .kwWhile) (h : Accepts .paren (.cond false :: st) ts) :
      Accepts .operand st (t :: ts)
  /-- A function starts with its parameters, which are read at once. -/
  | fn {st t u ts names mid} (hk : t.kind = .kwFunction) (hu : u.kind = .lparen)
      (hp : Parser.params ts = ⟨some names, mid, []⟩)
      (h : Accepts .brace (.block false :: st) mid) : Accepts .operand st (t :: u :: ts)
  /-- Behind an operand an operator goes on with the expression. -/
  | binary {st t ts} (hk : isBinary t.kind = true) (h : Accepts .operand st ts) :
      Accepts .after st (t :: ts)
  /-- So do the parentheses of a call without arguments. -/
  | noArgs {st t u ts} (hk : t.kind = .lparen) (hu : u.kind = .rparen) (h : Accepts .after st ts) :
      Accepts .after st (t :: u :: ts)
  /-- And so does a parenthesis in front of arguments, whatever else it could start. -/
  | someArgs {st t ts} (hk : t.kind = .lparen) (h : Accepts .operand (.args :: st) ts) :
      Accepts .after st (t :: ts)
  /-- The expression in parentheses ends. -/
  | closeGroup {st t ts} (hk : t.kind = .rparen) (h : Accepts .after st ts) :
      Accepts .after (.group :: st) (t :: ts)
  /-- The last argument ends. -/
  | closeArgs {st t ts} (hk : t.kind = .rparen) (h : Accepts .after st ts) :
      Accepts .after (.args :: st) (t :: ts)
  /-- Another argument follows. -/
  | nextArg {st t ts} (hk : t.kind = .comma) (h : Accepts .operand (.args :: st) ts) :
      Accepts .after (.args :: st) (t :: ts)
  /-- The condition ends, and its block comes next. -/
  | closeCond {st b t ts} (hk : t.kind = .rparen) (h : Accepts .brace (.block b :: st) ts) :
      Accepts .after (.cond b :: st) (t :: ts)
  /-- The statement ends with its semicolon. -/
  | semicolon {st t ts} (hk : t.kind = .semicolon) (h : Accepts .stmts st ts) :
      Accepts .after (.stmt :: st) (t :: ts)
  /-- Without a semicolon it ends where nothing can go on with the expression. -/
  | juxtapose {st ts} (hb : isBinary (Parser.peek ts) = false) (hp : Parser.peek ts ≠ .lparen)
      (hs : Parser.peek ts ≠ .semicolon) (h : Accepts .stmts st ts) :
      Accepts .after (.stmt :: st) ts
  /-- A condition is in parentheses. -/
  | openCond {st b t ts} (hk : t.kind = .lparen) (h : Accepts .operand (.cond b :: st) ts) :
      Accepts .paren (.cond b :: st) (t :: ts)
  /-- A block is in braces. -/
  | openBlock {st b t ts} (hk : t.kind = .lbrace) (h : Accepts .stmts (.block b :: st) ts) :
      Accepts .brace (.block b :: st) (t :: ts)
  /-- The source ends where nothing is open. -/
  | finish : Accepts .stmts [] []
  /-- The statements of a block end. -/
  | closeBlock {st b t ts} (hk : t.kind = .rbrace) (h : Accepts .closed (.block b :: st) ts) :
      Accepts .stmts (.block b :: st) (t :: ts)
  /-- A binding is a name and an expression. -/
  | bind {st t x a ts} (hk : t.kind = .kwLet) (hx : x.kind = .ident) (ha : a.kind = .assign)
      (h : Accepts .operand (.stmt :: st) ts) : Accepts .stmts st (t :: x :: a :: ts)
  /-- A return has an expression. -/
  | valueReturn {st t ts} (hk : t.kind = .kwReturn) (h : Accepts .operand (.stmt :: st) ts) :
      Accepts .stmts st (t :: ts)
  /-- Or it has none, in front of a semicolon. -/
  | bareReturn {st t u ts} (hk : t.kind = .kwReturn) (hu : u.kind = .semicolon)
      (h : Accepts .stmts st ts) : Accepts .stmts st (t :: u :: ts)
  /-- And it needs none at the end of a block or of the source. -/
  | lastReturn {st t ts} (hk : t.kind = .kwReturn)
      (hr : Parser.peek ts = .rbrace ∨ Parser.peek ts = .eof) (h : Accepts .stmts st ts) :
      Accepts .stmts st (t :: ts)
  /-- A break takes the semicolon behind it. -/
  | brkEnding {st t u ts} (hk : t.kind = .kwBreak) (hu : u.kind = .semicolon)
      (h : Accepts .stmts st ts) : Accepts .stmts st (t :: u :: ts)
  /-- A break without one is a statement as well. -/
  | brk {st t ts} (hk : t.kind = .kwBreak) (hs : Parser.peek ts ≠ .semicolon)
      (h : Accepts .stmts st ts) : Accepts .stmts st (t :: ts)
  /-- Any expression is a statement. -/
  | exprStmt {st t ts} (hs : Parser.startsExpr t.kind = true)
      (h : Accepts .operand (.stmt :: st) (t :: ts)) : Accepts .stmts st (t :: ts)
  /-- The alternative of a choice is a block that has none itself. -/
  | alternative {st t ts} (hk : t.kind = .kwElse) (h : Accepts .brace (.block false :: st) ts) :
      Accepts .closed (.block true :: st) (t :: ts)
  /-- A block that ends without one is the end of an operand. -/
  | closed {st b ts} (hr : Parser.peek ts ≠ .kwElse) (h : Accepts .after st ts) :
      Accepts .closed (.block b :: st) ts

namespace Accepts

/-! ### A wider parenthesis -/

/-- A stack where some single expressions in parentheses are argument lists instead. -/
inductive Wider : List Frame → List Frame → Prop
  | nil : Wider [] []
  | same {f st st'} (h : Wider st st') : Wider (f :: st) (f :: st')
  /-- Where one expression is due in parentheses, there may be several. -/
  | args {st st'} (h : Wider st st') : Wider (.group :: st) (.args :: st')

/-- A stack is as wide as itself. -/
theorem Wider.refl (st : List Frame) : Wider st st := by
  induction st with
  | nil => exact .nil
  | cons f st ih => exact .same ih

/-- The machine accepts with a wider stack what it accepts with a stack: where a group is closed an
    argument list can be closed as well. -/
theorem widen {m : Mode} {st : List Frame} {ts : List Token} (h : Accepts m st ts) :
    ∀ {st'}, Wider st st' → Accepts m st' ts := by
  -- Only the top of the stack decides, and there an argument list can do all that a group can.
  induction h with
  | leaf hk hr _ ih => exact fun w => .leaf hk hr (ih w)
  | unary hk _ ih => exact fun w => .unary hk (ih w)
  | group hk _ ih => exact fun w => .group hk (ih w.same)
  | choice hk _ ih => exact fun w => .choice hk (ih w.same)
  | loop hk _ ih => exact fun w => .loop hk (ih w.same)
  | fn hk hu hp _ ih => exact fun w => .fn hk hu hp (ih w.same)
  | binary hk _ ih => exact fun w => .binary hk (ih w)
  | noArgs hk hu _ ih => exact fun w => .noArgs hk hu (ih w)
  | someArgs hk _ ih => exact fun w => .someArgs hk (ih w.same)
  | closeGroup hk _ ih =>
    intro st' w
    cases w with
    | same w => exact .closeGroup hk (ih w)
    | args w => exact .closeArgs hk (ih w)
  | closeArgs hk _ ih => rintro _ (_ | w); exact .closeArgs hk (ih w)
  | nextArg hk _ ih => rintro _ (_ | w); exact .nextArg hk (ih w.same)
  | closeCond hk _ ih => rintro _ (_ | w); exact .closeCond hk (ih w.same)
  | semicolon hk _ ih => rintro _ (_ | w); exact .semicolon hk (ih w)
  | juxtapose hb hp hs _ ih => rintro _ (_ | w); exact .juxtapose hb hp hs (ih w)
  | openCond hk _ ih => rintro _ (_ | w); exact .openCond hk (ih w.same)
  | openBlock hk _ ih => rintro _ (_ | w); exact .openBlock hk (ih w.same)
  | finish => rintro _ ⟨⟩; exact .finish
  | closeBlock hk _ ih => rintro _ (_ | w); exact .closeBlock hk (ih w.same)
  | bind hk hx ha _ ih => exact fun w => .bind hk hx ha (ih w.same)
  | valueReturn hk _ ih => exact fun w => .valueReturn hk (ih w.same)
  | bareReturn hk hu _ ih => exact fun w => .bareReturn hk hu (ih w)
  | lastReturn hk hr _ ih => exact fun w => .lastReturn hk hr (ih w)
  | brkEnding hk hu _ ih => exact fun w => .brkEnding hk hu (ih w)
  | brk hk hs _ ih => exact fun w => .brk hk hs (ih w)
  | exprStmt hs _ ih => exact fun w => .exprStmt hs (ih w.same)
  | alternative hk _ ih => rintro _ (_ | w); exact .alternative hk (ih w.same)
  | closed hr _ ih => rintro _ (_ | w); exact .closed hr (ih w)

/-! ### What comes first -/

variable {st : List Frame} {t : Token} {ts : List Token}

/-- Where an operand has to come, the next token starts an expression. -/
theorem startsExpr_head (h : Accepts .operand st (t :: ts)) : Parser.startsExpr t.kind = true := by
  cases h with
  | leaf hk => cases ht : t.kind <;> simp_all [isLeaf, Parser.startsExpr]
  | unary hk => rcases hk with hk | hk <;> rw [hk] <;> rfl
  | group hk | choice hk | loop hk | fn hk => rw [hk]; rfl

/-- Statements start with a keyword or an expression, or there are none. -/
theorem stmts_head (h : Accepts .stmts st ts) : Parser.startsExpr (Parser.peek ts) = true ∨
    Parser.peek ts ∈ [.eof, .rbrace, .kwLet, .kwReturn, .kwBreak] := by
  cases h with
  | finish => simp [Parser.peek]
  | closeBlock hk | bind hk | valueReturn hk | bareReturn hk | lastReturn hk | brkEnding hk
  | brk hk => simp [Parser.peek, hk]
  | exprStmt hs => exact .inl hs

/-- Between statements the machine takes no semicolon: it has taken it with the statement. -/
theorem peek_ne_semicolon (h : Accepts .stmts st ts) : Parser.peek ts ≠ .semicolon := by
  intro hk
  have hhead := h.stmts_head
  rw [hk] at hhead
  exact absurd hhead (by decide)

/-- Behind an operand the keyword of an alternative is taken by nothing. -/
theorem peek_ne_else (h : Accepts .after st ts) : Parser.peek ts ≠ .kwElse := by
  cases h with
  | binary hk =>
    intro he
    rw [Parser.peek] at he
    simp [he, isBinary] at hk
  | noArgs hk | someArgs hk | closeGroup hk | closeArgs hk | nextArg hk | closeCond hk
  | semicolon hk => simp [Parser.peek, hk]
  -- Here the expression has ended, and what comes next starts a statement.
  | juxtapose _ _ _ h =>
    intro he
    have hhead := h.stmts_head
    rw [he] at hhead
    exact absurd hhead (by decide)

/-- **Statements may be read as the rest of an expression.**  Where the next statement starts
    with a minus or a parenthesis, the machine takes it for a difference or a call. -/
theorem after_of_stmts (h : Accepts .stmts st ts) : Accepts .after (.stmt :: st) ts := by
  -- Most statements start with a token that cannot go on with an expression.
  by_cases hb : isBinary (Parser.peek ts) = false ∧ Parser.peek ts ≠ .lparen
  · exact .juxtapose hb.1 hb.2 h.peek_ne_semicolon h
  cases h with
  | finish => simp [Parser.peek, isBinary] at hb
  | closeBlock hk | bind hk | valueReturn hk | bareReturn hk | lastReturn hk | brkEnding hk
  | brk hk => simp [Parser.peek, hk, isBinary] at hb
  | @exprStmt _ t ts hs h =>
    rw [Parser.peek] at hb
    -- A parenthesis in front of a statement is taken for the arguments of a call.
    by_cases hl : t.kind = .lparen
    · cases h with
      | group _ h => exact .someArgs hl (h.widen (.args (.refl _)))
      | leaf hk => simp [hl, isLeaf] at hk
      | unary hk | choice hk | loop hk | fn hk => simp [hl] at hk
    · -- A minus is the only other operator that starts an expression.
      have hm : t.kind = .minus := by
        cases ht : t.kind <;> simp_all [isBinary, Parser.startsExpr]
      cases h with
      | unary _ h => exact .binary (by simp [hm, isBinary]) h
      | leaf hk => simp [hm, isLeaf] at hk
      | group hk | choice hk | loop hk | fn hk => simp [hm] at hk

/-- Reading goes on behind a statement with or without a semicolon. -/
theorem after_of_ending {rest : List Token} (hd : Derives .ending ts rest)
    (h : Accepts .stmts st rest) : Accepts .after (.stmt :: st) ts := by
  cases hd with
  | noEnding => exact h.after_of_stmts
  | ending hk => exact .semicolon hk h

/-- What is accepted behind an expression is accepted behind a block of a choice that has ended
    there. -/
theorem closed_of_after {b : Bool} (h : Accepts .after st ts) :
    Accepts .closed (.block b :: st) ts :=
  .closed h.peek_ne_else h

/-- What is accepted as an operand of a statement is accepted as a statement. -/
theorem stmts_of_operand (h : Accepts .operand (.stmt :: st) ts) : Accepts .stmts st ts := by
  cases ts with
  | nil => cases h
  | cons t ts => exact .exprStmt h.startsExpr_head h

end Accepts

/-! ### The machine accepts every sentence -/

/-- The names of parameters start with a name. -/
theorem Derives.names_head {ts rest : List Token} (h : Derives .names ts rest) :
    ∃ t ts', ts = t :: ts' ∧ t.kind = .ident := by
  cases h with
  | lastName hk | nextName hk => exact ⟨_, _, rfl, hk⟩

/-- How the machine takes a phrase: when it accepts what follows, it accepts the phrase in
    front of it. -/
def Symbol.Taken : Symbol → List Token → List Token → Prop
  | .stmts, ts, rest | .stmt, ts, rest => ∀ st, Accepts .stmts st rest → Accepts .stmts st ts
  | .ending, ts, rest => ∀ st, Accepts .stmts st rest → Accepts .after (.stmt :: st) ts
  | .expr, ts, rest => ∀ st, Accepts .after st rest → Accepts .operand st ts
  | .exprs, ts, rest =>
    ∀ st, Accepts .after (.args :: st) rest → Accepts .operand (.args :: st) ts
  | .condition, ts, rest =>
    ∀ b st, Accepts .brace (.block b :: st) rest → Accepts .paren (.cond b :: st) ts
  | .names, ts, rest =>
    ∀ v mid, rest = v :: mid → v.kind = .rparen → ∃ names, Parser.params ts = ⟨some names, mid, []⟩
  | .block, ts, rest =>
    ∀ b st, Accepts .closed (.block b :: st) rest → Accepts .brace (.block b :: st) ts

/-- The tokens behind a phrase are in range if all of them are. -/
theorem Derives.inRange {X : Symbol} {ts rest : List Token} (h : Derives X ts rest)
    (hr : ∀ t ∈ ts, t.InRange) : ∀ t ∈ rest, t.InRange :=
  fun t ht => hr t (h.suffix.subset ht)

/-- The tokens behind the first one are in range if all of them are. -/
theorem inRange_tail {t : Token} {ts : List Token} (hr : ∀ x ∈ t :: ts, x.InRange) :
    ∀ x ∈ ts, x.InRange :=
  (List.forall_mem_cons.1 hr).2

/-- **The machine accepts every phrase** in front of what it accepts, if its integers are in
    range. -/
theorem Derives.taken {X : Symbol} {ts rest : List Token} (h : Derives X ts rest)
    (hr : ∀ t ∈ ts, t.InRange) : X.Taken ts rest := by
  -- From what follows a phrase back to its first token.
  induction h with
  | noStmt => exact fun _ h => h
  | moreStmts hd _ ih ih' => exact fun st h => ih hr st (ih' (hd.inRange hr) st h)
  | noEnding => exact fun _ h => h.after_of_stmts
  | ending hk => exact fun _ h => .semicolon hk h
  | bind hk hx ha _ he ih =>
    intro st h
    have hr' := inRange_tail (inRange_tail (inRange_tail hr))
    exact .bind hk hx ha (ih hr' _ (h.after_of_ending he))
  | valueReturn hk _ he ih =>
    exact fun st h => .valueReturn hk (ih (inRange_tail hr) _ (h.after_of_ending he))
  | bareReturn hk hu => exact fun st h => .bareReturn hk hu h
  | lastReturn hk hl => exact fun st h => .lastReturn hk hl h
  | brk hk he =>
    intro st h
    cases he with
    | noEnding => exact .brk hk h.peek_ne_semicolon h
    | ending hu => exact .brkEnding hk hu h
  | exprStmt _ he ih => exact fun st h => (ih hr _ (h.after_of_ending he)).stmts_of_operand
  | leaf hk => exact fun st h => .leaf hk (List.forall_mem_cons.1 hr).1 h
  | group hk _ hu ih => exact fun st h => .group hk (ih (inRange_tail hr) _ (.closeGroup hu h))
  | unary hk _ ih => exact fun st h => .unary hk (ih (inRange_tail hr) st h)
  | binary hd hk _ ih ih' =>
    exact fun st h => ih hr st (.binary hk (ih' (inRange_tail (hd.inRange hr)) st h))
  | noArgs _ hk hu ih => exact fun st h => ih hr st (.noArgs hk hu h)
  | someArgs hd hk _ hu ih ih' =>
    intro st h
    exact ih hr st (.someArgs hk (ih' (inRange_tail (hd.inRange hr)) st (.closeArgs hu h)))
  | oneWay hk hc _ ih ih' =>
    intro st h
    have hr' := inRange_tail hr
    exact .choice hk (ih hr' true st (ih' (hc.inRange hr') true st h.closed_of_after))
  | twoWays hk hc hb hu _ ih ih' ih'' =>
    intro st h
    have hr' := inRange_tail hr
    have hr'' := hc.inRange hr'
    -- Behind the alternative no other one can come.
    have halt := ih'' (inRange_tail (hb.inRange hr'')) false st h.closed_of_after
    exact .choice hk (ih hr' true st (ih' hr'' true st (.alternative hu halt)))
  | loop hk hc _ ih ih' =>
    intro st h
    have hr' := inRange_tail hr
    exact .loop hk (ih hr' false st (ih' (hc.inRange hr') false st h.closed_of_after))
  | noParams hk hu hv _ ih =>
    intro st h
    have hr' := inRange_tail (inRange_tail (inRange_tail hr))
    exact .fn hk hu (by rw [Parser.params, if_pos hv]) (ih hr' false st h.closed_of_after)
  | someParams hk hu hd hv _ ih ih' =>
    intro st h
    have hr' := inRange_tail (inRange_tail hr)
    obtain ⟨names, hp⟩ := ih hr' _ _ rfl hv
    exact .fn hk hu hp (ih' (inRange_tail (hd.inRange hr')) false st h.closed_of_after)
  | lastExpr _ ih => exact fun st h => ih hr _ h
  | nextExpr hd hk _ ih ih' =>
    exact fun st h => ih hr _ (.nextArg hk (ih' (inRange_tail (hd.inRange hr)) st h))
  | condition hk _ hu ih =>
    exact fun b st h => .openCond hk (ih (inRange_tail hr) _ (.closeCond hu h))
  | lastName hk =>
    rintro v mid rfl hv
    exact ⟨_, by rw [Parser.params_of_ident hk, Parser.moreParams_of_rparen hv]; rfl⟩
  | nextName hk hu hd ih =>
    rintro v mid rfl hv
    obtain ⟨names, hp⟩ := ih (inRange_tail (inRange_tail hr)) v mid rfl hv
    obtain ⟨w, ws, rfl, hw⟩ := hd.names_head
    exact ⟨_, by rw [Parser.params_of_ident hk, Parser.moreParams_of_comma hu hw, hp]; rfl⟩
  | block hk _ hu ih =>
    exact fun b st h => .openBlock hk (ih (inRange_tail hr) _ (.closeBlock hu h))

end Grammar
end Incognita
