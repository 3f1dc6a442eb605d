import Incognita.Proofs.Rendering.Written

namespace Incognita

open Token (mark)

/-!
# Rendering — the tokens of expression statements

A statement that is an expression keeps the token that it starts with, which depends on how the
expression is written.  Everything else in a tree is the same however it is written.

* `Expr.unstamped`, `Stmt.unstamped`, `Program.unstamped` — the tree with one token for all of
  these statements;
* `Stmt.strayBreaksAll_unstamped` — the breaks stay where they are;
* `Phrase.Restamped` — the tree can be given the tokens that its statements start with;
* `Written.restamped` — whatever it is written out to.
-/

/-! ### Trees without the tokens -/

mutual

/-- The expression with one token for all expression statements in it. -/
def Expr.unstamped : Expr → Expr
  | .missing => .missing
  | .ident x => .ident x
  | .int t v => .int t v
  | .bool t v => .bool t v
  | .str t v => .str t v
  | .unary t op e => .unary t op e.unstamped
  | .binary t l op r => .binary t l.unstamped op r.unstamped
  | .choice t c a b => .choice t c.unstamped a.unstamped b.unstamped
  | .loop t c b => .loop t c.unstamped b.unstamped
  | .fn t xs b => .fn t xs b.unstamped
  | .call t f as => .call t f.unstamped (Expr.unstampedAll as)

/-- The expressions with one token for all expression statements in them. -/
def Expr.unstampedAll : List Expr → List Expr
  | [] => []
  | e :: es => e.unstamped :: Expr.unstampedAll es

/-- The statement with one token for all expression statements in it. -/
def Stmt.unstamped : Stmt → Stmt
  | .missing => .missing
  | .bind t x e => .bind t x e.unstamped
  | .ret t e => .ret t e.unstamped
  | .brk t => .brk t
  | .expr _ e => .expr (mark .lparen) e.unstamped
  | .block b => .block b.unstamped

/-- The statements with one token for all expression statements in them. -/
def Stmt.unstampedAll : List Stmt → List Stmt
  | [] => []
  | s :: ss => s.unstamped :: Stmt.unstampedAll ss

/-- The block with one token for all expression statements in it. -/
def Block.unstamped : Block → Block
  | .missing => .missing
  | .mk t ss => .mk t (Stmt.unstampedAll ss)

end

/-- The program with one token for all expression statements in it. -/
def Program.unstamped (p : Program) : Program := ⟨Stmt.unstampedAll p.stmts⟩

/-! ### What does not depend on the tokens -/

/-- The tokens of expression statements do not matter for how tightly an expression binds. -/
theorem Expr.power_unstamped (e : Expr) : e.unstamped.power = e.power := by
  cases e <;> simp only [Expr.unstamped, Expr.power]

/-- Expressions that differ in these tokens bind alike, and need the same parentheses. -/
theorem Expr.power_congr {e e' : Expr} (h : e'.unstamped = e.unstamped) : e'.power = e.power := by
  rw [← e'.power_unstamped, h, e.power_unstamped]

mutual

/-- The tokens of expression statements do not matter for the breaks in an expression. -/
theorem Expr.strayBreaks_unstamped (b : Bool) : (e : Expr) →
    e.unstamped.strayBreaks b = e.strayBreaks b
  | .missing | .ident _ | .int _ _ | .bool _ _ | .str _ _ => by simp only [Expr.unstamped]
  | .unary _ _ e => by
    rw [Expr.unstamped, Expr.strayBreaks, e.strayBreaks_unstamped b, Expr.strayBreaks]
  | .binary _ l _ r => by
    rw [Expr.unstamped, Expr.strayBreaks, l.strayBreaks_unstamped b, r.strayBreaks_unstamped b,
      Expr.strayBreaks]
  | .choice _ c x y => by
    rw [Expr.unstamped, Expr.strayBreaks, c.strayBreaks_unstamped b, x.strayBreaks_unstamped b,
      y.strayBreaks_unstamped b, Expr.strayBreaks]
  -- The body of a loop may break, that of a function may not.
  | .loop _ c x => by
    rw [Expr.unstamped, Expr.strayBreaks, c.strayBreaks_unstamped b, x.strayBreaks_unstamped true,
      Expr.strayBreaks]
  | .fn _ _ x => by
    rw [Expr.unstamped, Expr.strayBreaks, x.strayBreaks_unstamped false, Expr.strayBreaks]
  | .call _ f as => by
    rw [Expr.unstamped, Expr.strayBreaks, f.strayBreaks_unstamped b,
      Expr.strayBreaksAll_unstamped b as, Expr.strayBreaks]

/-- The same for the arguments of a call. -/
theorem Expr.strayBreaksAll_unstamped (b : Bool) : (es : List Expr) →
    Expr.strayBreaksAll b (Expr.unstampedAll es) = Expr.strayBreaksAll b es
  | [] => by rw [Expr.unstampedAll]
  | e :: es => by
    rw [Expr.unstampedAll, Expr.strayBreaksAll, e.strayBreaks_unstamped b,
      Expr.strayBreaksAll_unstamped b es, Expr.strayBreaksAll]

/-- The same for a statement. -/
theorem Stmt.strayBreaks_unstamped (b : Bool) : (s : Stmt) →
    s.unstamped.strayBreaks b = s.strayBreaks b
  | .missing | .brk _ => by simp only [Stmt.unstamped]
  | .bind _ _ e | .ret _ e | .expr _ e => by
    simp only [Stmt.unstamped, Stmt.strayBreaks, e.strayBreaks_unstamped b]
  | .block x => by
    rw [Stmt.unstamped, Stmt.strayBreaks, x.strayBreaks_unstamped b, Stmt.strayBreaks]

/-- The same for statements one after the other. -/
theorem Stmt.strayBreaksAll_unstamped (b : Bool) : (ss : List Stmt) →
    Stmt.strayBreaksAll b (Stmt.unstampedAll ss) = Stmt.strayBreaksAll b ss
  | [] => by rw [Stmt.unstampedAll]
  | s :: ss => by
    rw [Stmt.unstampedAll, Stmt.strayBreaksAll, s.strayBreaks_unstamped b,
      Stmt.strayBreaksAll_unstamped b ss, Stmt.strayBreaksAll]

/-- The same for a block. -/
theorem Block.strayBreaks_unstamped (b : Bool) : (x : Block) →
    x.unstamped.strayBreaks b = x.strayBreaks b
  | .missing => by rw [Block.unstamped]
  | .mk _ ss => by
    rw [Block.unstamped, Block.strayBreaks, Stmt.strayBreaksAll_unstamped b ss, Block.strayBreaks]

end

/-- **The breaks of a program stay where they are.** -/
theorem Program.strayBreaks_congr {p p' : Program} (h : p'.unstamped = p.unstamped) :
    p'.strayBreaks = p.strayBreaks := by
  have hstmts : Stmt.unstampedAll p'.stmts = Stmt.unstampedAll p.stmts := congrArg Program.stmts h
  rw [Program.strayBreaks, Program.strayBreaks, ← Stmt.strayBreaksAll_unstamped, hstmts,
    Stmt.strayBreaksAll_unstamped]

/-! ### The tokens that a text gives -/

/-- An expression is written out to at least one token. -/
theorem Written.ne_nil {strict : Bool} {e : Expr} {ts : List Token}
    (h : Written strict (.whole e) ts) : ts ≠ [] := by
  cases h with
  | whole he => cases he <;> simp
  | group => simp [grouped]

/-- Some tree that differs in the tokens of expression statements only is strictly written out to
    the tokens. -/
def Phrase.Restamped : Phrase → List Token → Prop
  | .bare e, ts => ∃ e', e'.unstamped = e.unstamped ∧ e'.Filled ∧ Written true (.bare e') ts
  | .operand p e, ts =>
    ∃ e', e'.unstamped = e.unstamped ∧ e'.Filled ∧ Written true (.operand p e') ts
  | .whole e, ts => ∃ e', e'.unstamped = e.unstamped ∧ e'.Filled ∧ Written true (.whole e') ts
  | .args es, ts => ∃ es', Expr.unstampedAll es' = Expr.unstampedAll es ∧ Expr.FilledAll es' ∧
      Written true (.args es') ts
  | .block b, ts => ∃ b', b'.unstamped = b.unstamped ∧ b'.Filled ∧ Written true (.block b') ts
  | .stmt s, ts => ∃ s', s'.unstamped = s.unstamped ∧ s'.Filled ∧ Written true (.stmt s') ts
  | .stmts ss, ts => ∃ ss', Stmt.unstampedAll ss' = Stmt.unstampedAll ss ∧ Stmt.FilledAll ss' ∧
      Written true (.stmts ss') ts

/-- **Whatever a tree is written out to gives it the tokens of its expression statements.**  By
    induction on how it is written: a parenthesis in front of an expression statement is its first
    token, and the tree that knows of it is strictly written out to the same tokens. -/
theorem Written.restamped {X : Phrase} {ts : List Token} (h : Written false X ts) (hf : X.Filled) :
    X.Restamped ts := by
  induction h with
  | ident => exact ⟨_, rfl, hf, .ident⟩
  | int => exact ⟨_, rfl, hf, .int⟩
  | bool => exact ⟨_, rfl, hf, .bool⟩
  | str => exact ⟨_, rfl, hf, .str⟩
  | @unary t op e _ _ ih =>
    obtain ⟨ht, hop, he⟩ := hf
    obtain ⟨e', heq, he', hw⟩ := ih he
    exact ⟨.unary t op e', by rw [Expr.unstamped, heq, Expr.unstamped], ⟨ht, hop, he'⟩, .unary hw⟩
  | @binary t l op r _ _ _ _ ihl ihr =>
    obtain ⟨ht, hb, hop, hl, hr⟩ := hf
    obtain ⟨l', hleq, hl', hlw⟩ := ihl hl
    obtain ⟨r', hreq, hr', hrw⟩ := ihr hr
    refine ⟨.binary t l' op r', ?_, ⟨ht, hb, hop, hl', hr'⟩, .binary hlw hrw⟩
    rw [Expr.unstamped, hleq, hreq, Expr.unstamped]
  | @call t f as _ _ _ _ ihf iha =>
    obtain ⟨ht, hff, haf⟩ := hf
    obtain ⟨f', hfeq, hf', hfw⟩ := ihf hff
    obtain ⟨as', haeq, ha', haw⟩ := iha haf
    refine ⟨.call t f' as', ?_, ⟨ht, hf', ha'⟩, .call hfw haw⟩
    rw [Expr.unstamped, hfeq, haeq, Expr.unstamped]
  | @oneWay t c a _ _ _ _ ihc iha =>
    obtain ⟨ht, hcf, haf, hm⟩ := hf
    obtain ⟨c', hceq, hc', hcw⟩ := ihc hcf
    obtain ⟨a', haeq, ha', haw⟩ := iha haf
    refine ⟨.choice t c' a' .missing, ?_, ⟨ht, hc', ha', hm⟩, .oneWay hcw haw⟩
    rw [Expr.unstamped, hceq, haeq, Expr.unstamped]
  | @twoWays t c a b _ _ _ _ _ _ ihc iha ihb =>
    obtain ⟨ht, hcf, haf, hbf⟩ := hf
    obtain ⟨c', hceq, hc', hcw⟩ := ihc hcf
    obtain ⟨a', haeq, ha', haw⟩ := iha haf
    obtain ⟨b', hbeq, hb', hbw⟩ := ihb hbf
    refine ⟨.choice t c' a' b', ?_, ⟨ht, hc', ha', hb'⟩, .twoWays hcw haw hbw⟩
    rw [Expr.unstamped, hceq, haeq, hbeq, Expr.unstamped]
  | @loop t c b _ _ _ _ ihc ihb =>
    obtain ⟨ht, hcf, hbf⟩ := hf
    obtain ⟨c', hceq, hc', hcw⟩ := ihc hcf
    obtain ⟨b', hbeq, hb', hbw⟩ := ihb hbf
    refine ⟨.loop t c' b', ?_, ⟨ht, hc', hb'⟩, .loop hcw hbw⟩
    rw [Expr.unstamped, hceq, hbeq, Expr.unstamped]
  | @fn t xs b _ _ ihb =>
    obtain ⟨ht, hxs, hbf⟩ := hf
    obtain ⟨b', hbeq, hb', hbw⟩ := ihb hbf
    refine ⟨.fn t (xs.map some) b', ?_, ⟨ht, hxs, hb'⟩, .fn hbw⟩
    rw [Expr.unstamped, hbeq, Expr.unstamped]
  | tight hp _ ih =>
    obtain ⟨e', heq, he', hw⟩ := ih hf
    exact ⟨e', heq, he', .tight (by rwa [Expr.power_congr heq]) hw⟩
  | operand _ ih =>
    obtain ⟨e', heq, he', hw⟩ := ih hf
    exact ⟨e', heq, he', .operand hw⟩
  | whole _ ih =>
    obtain ⟨e', heq, he', hw⟩ := ih hf
    exact ⟨e', heq, he', .whole hw⟩
  | group _ ih =>
    obtain ⟨e', heq, he', hw⟩ := ih hf
    exact ⟨e', heq, he', .group hw⟩
  | noArgs => exact ⟨[], rfl, trivial, .noArgs⟩
  | lastArg _ ih =>
    obtain ⟨e', heq, he', hw⟩ := ih hf.1
    refine ⟨[e'], ?_, ⟨he', trivial⟩, .lastArg hw⟩
    simp only [Expr.unstampedAll, heq]
  | @nextArg e e₂ es _ _ _ _ ihe ihes =>
    obtain ⟨e', heq, he', hw⟩ := ihe hf.1
    obtain ⟨es', hseq, hes', hws⟩ := ihes hf.2
    -- There is an argument behind the comma in the one list, so there is one in the other.
    cases es' with
    | nil => simp [Expr.unstampedAll] at hseq
    | cons e₂' es' =>
      refine ⟨e' :: e₂' :: es', ?_, ⟨he', hes'⟩, .nextArg hw hws⟩
      simp only [Expr.unstampedAll] at hseq ⊢
      rw [heq, hseq]
  | @block t ss _ _ ih =>
    obtain ⟨ss', hseq, hss', hws⟩ := ih hf.2
    exact ⟨.mk t ss', by rw [Block.unstamped, hseq, Block.unstamped], ⟨hf.1, hss'⟩, .block hws⟩
  | @bind t x e _ _ ih =>
    obtain ⟨ht, hx, he⟩ := hf
    obtain ⟨e', heq, he', hw⟩ := ih he
    refine ⟨.bind t (some x) e', ?_, ⟨ht, hx, he'⟩, .bind hw⟩
    rw [Stmt.unstamped, heq, Stmt.unstamped]
  | bareRet => exact ⟨_, rfl, hf, .bareRet⟩
  | @ret t e _ _ ih =>
    obtain ⟨e', heq, he', hw⟩ := ih hf.2
    exact ⟨.ret t e', by rw [Stmt.unstamped, heq, Stmt.unstamped], ⟨hf.1, he'⟩, .ret hw⟩
  | brk => exact ⟨_, rfl, hf, .brk⟩
  | @expr t e ts _ _ ih =>
    obtain ⟨e', heq, he', hw⟩ := ih hf
    obtain ⟨t', ts', rfl⟩ := List.exists_cons_of_ne_nil hw.ne_nil
    exact ⟨.expr t' e', by rw [Stmt.unstamped, heq, Stmt.unstamped], he', .expr hw fun _ => rfl⟩
  | nil => exact ⟨[], rfl, trivial, .nil⟩
  | cons _ _ ihs ihss =>
    obtain ⟨s', heq, hs', hw⟩ := ihs hf.1
    obtain ⟨ss', hseq, hss', hws⟩ := ihss hf.2
    refine ⟨s' :: ss', ?_, ⟨hs', hss'⟩, .cons hw hws⟩
    rw [Stmt.unstampedAll, heq, hseq, Stmt.unstampedAll]

end Incognita
