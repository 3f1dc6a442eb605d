import Incognita.Proofs.Grammar.Derivation
import Incognita.Proofs.Shape
import Incognita.Proofs.Spacing

namespace Incognita

/-!
# Rendering — programs written out

What a tree may be written out to.  Parentheses stand at least where the powers of the operators
ask for them, and anywhere else one likes.

* `Expr.power` — how tightly the outermost operator of an expression binds;
* `Written` — the tokens that a tree may be written out to.  Strictly so if every statement that
  is an expression also has for its token the first one that it is written out to;
* `Expr.tokens`, `Stmt.tokens`, `Program.tokens` — the tokens with no parentheses but the ones
  that are needed;
* `Program.WellFormed` — the trees that a source can have: complete, with every break in a loop,
  and with the tokens that reading fills in, those of expression statements aside;
* `Program.WellFormed.written` — such a tree can be written out;
* `Written.lexes` — and the tokens can be cut again from their spelling.
-/

/-- An operator between operands has a spelling of its own. -/
theorem Token.text_of_isBinary {k : Token.Kind} (h : Grammar.isBinary k = true) : k.text ≠ "" := by
  cases k <;> simp [Grammar.isBinary, Token.Kind.text] at h ⊢

open Token (mark)

/-! ### The tokens of a tree -/

/-- How tightly the outermost operator of an expression binds.  An expression that is no operator
    in front of or between operands holds together like a call. -/
def Expr.power : Expr → Power
  | .binary t _ _ _ => Power.ofKind t.kind
  | .unary _ _ _ => Power.unary
  | _ => Power.ofKind .lparen

/-- Tokens in parentheses. -/
def grouped (ts : List Token) : List Token := mark .lparen :: (ts ++ [mark .rparen])

/-- Names with commas between them. -/
def paramTokens : List Ident → List Token
  | [] => []
  | [x] => [x.token]
  | x :: y :: xs => x.token :: mark .comma :: paramTokens (y :: xs)

/-- What can be written out. -/
inductive Phrase where
  /-- An expression without parentheses around it. -/
  | bare (e : Expr)
  /-- An operand, where an operator inside it has to bind at least as tightly as the power. -/
  | operand (power : Power) (e : Expr)
  /-- An expression where nothing binds. -/
  | whole (e : Expr)
  /-- The arguments of a call with the closing parenthesis. -/
  | args (es : List Expr)
  | block (b : Block)
  | stmt (s : Stmt)
  | stmts (ss : List Stmt)

/-- What a tree may be written out to.  A parenthesis in front of an expression statement is the
    first token of the statement, so `strict` asks that the tree knows of it. -/
inductive Written (strict : Bool) : Phrase → List Token → Prop
  | ident {x} : Written strict (.bare (.ident x)) [x.token]
  | int {t v} : Written strict (.bare (.int t v)) [t]
  | bool {t v} : Written strict (.bare (.bool t v)) [t]
  | str {t v} : Written strict (.bare (.str t v)) [t]
  /-- The operand of a sign needs parentheses around operators. -/
  | unary {t op e ts} (he : Written strict (.operand Power.unary e) ts) :
      Written strict (.bare (.unary t op e)) (t :: ts)
  -- Operators of one power group to the left.
  | binary {t l op r ls rs} (hl : Written strict (.operand (Power.ofKind t.kind) l) ls)
      (hr : Written strict (.operand (Power.ofKind t.kind + 1) r) rs) :
      Written strict (.bare (.binary t l op r)) (ls ++ t :: rs)
  | call {t f as fs ts} (hf : Written strict (.operand (Power.ofKind .lparen) f) fs)
      (ha : Written strict (.args as) ts) : Written strict (.bare (.call t f as)) (fs ++ t :: ts)
  /-- A missing alternative is not written. -/
  | oneWay {t c a cs as} (hc : Written strict (.whole c) cs) (ha : Written strict (.block a) as) :
      Written strict (.bare (.choice t c a .missing)) (t :: (grouped cs ++ as))
  | twoWays {t c a b cs as bs} (hc : Written strict (.whole c) cs)
      (ha : Written strict (.block a) as) (hb : Written strict (.block b) bs) :
      Written strict (.bare (.choice t c a b)) (t :: (grouped cs ++ as ++ mark .kwElse :: bs))
  | loop {t c b cs bs} (hc : Written strict (.whole c) cs) (hb : Written strict (.block b) bs) :
      Written strict (.bare (.loop t c b)) (t :: (grouped cs ++ bs))
  /-- The parameters have to be there to be written. -/
  | fn {t xs b bs} (hb : Written strict (.block b) bs) :
      Written strict (.bare (.fn t (xs.map some) b)) (t :: (grouped (paramTokens xs) ++ bs))
  /-- An operand that binds tightly enough needs no parentheses. -/
  | tight {p e ts} (hp : p ≤ e.power) (he : Written strict (.bare e) ts) :
      Written strict (.operand p e) ts
  /-- In parentheses any expression is an operand. -/
  | operand {p e ts} (he : Written strict (.whole e) ts) :
      Written strict (.operand p e) (grouped ts)
  /-- Where nothing binds no parentheses are needed. -/
  | whole {e ts} (he : Written strict (.bare e) ts) : Written strict (.whole e) ts
  /-- Parentheses that are not needed may be written all the same. -/
  | group {e ts} (he : Written strict (.whole e) ts) : Written strict (.whole e) (grouped ts)
  | noArgs : Written strict (.args []) [mark .rparen]
  | lastArg {e ts} (he : Written strict (.whole e) ts) :
      Written strict (.args [e]) (ts ++ [mark .rparen])
  | nextArg {e e' es ts us} (he : Written strict (.whole e) ts)
      (hes : Written strict (.args (e' :: es)) us) :
      Written strict (.args (e :: e' :: es)) (ts ++ mark .comma :: us)
  | block {t ss ts} (hs : Written strict (.stmts ss) ts) :
      Written strict (.block (.mk t ss)) (t :: (ts ++ [mark .rbrace]))
  | bind {t x e ts} (he : Written strict (.whole e) ts) :
      Written strict (.stmt (.bind t (some x) e))
        (t :: x.token :: mark .assign :: (ts ++ [mark .semicolon]))
  /-- The value of a return may be missing. -/
  | bareRet {t} : Written strict (.stmt (.ret t .missing)) [t, mark .semicolon]
  | ret {t e ts} (he : Written strict (.whole e) ts) :
      Written strict (.stmt (.ret t e)) (t :: (ts ++ [mark .semicolon]))
  | brk {t} : Written strict (.stmt (.brk t)) [t, mark .semicolon]
  /-- An expression statement, whose token is the first one that is written if `strict` asks for
      it. -/
  | expr {t e ts} (he : Written strict (.whole e) ts) (ht : strict = true → ts.head? = some t) :
      Written strict (.stmt (.expr t e)) (ts ++ [mark .semicolon])
  | nil : Written strict (.stmts []) []
  | cons {s ss ts us} (hs : Written strict (.stmt s) ts) (hss : Written strict (.stmts ss) us) :
      Written strict (.stmts (s :: ss)) (ts ++ us)

/-- What a program may be written out to. -/
def Program.Written (p : Program) (ts : List Token) : Prop :=
  Incognita.Written false (.stmts p.stmts) ts

/-- The program is written out so, and its expression statements have the tokens that they start
    with. -/
def Program.WrittenExactly (p : Program) (ts : List Token) : Prop :=
  Incognita.Written true (.stmts p.stmts) ts

/-- An operand with parentheses if it needs them. -/
def operandTokens (p q : Power) (ts : List Token) : List Token := if p ≤ q then ts else grouped ts

mutual

/-- The tokens of an expression, with the parentheses it needs. -/
def Expr.tokens : Expr → List Token
  | .missing => []
  | .ident x => [x.token]
  | .int t _ | .bool t _ | .str t _ => [t]
  | .unary t _ e => t :: operandTokens Power.unary e.power e.tokens
  | .binary t l _ r =>
    operandTokens (Power.ofKind t.kind) l.power l.tokens ++
      t :: operandTokens (Power.ofKind t.kind + 1) r.power r.tokens
  | .choice t c a .missing => t :: (grouped c.tokens ++ a.tokens)
  | .choice t c a (.mk u ss) =>
    t :: (grouped c.tokens ++ a.tokens ++ mark .kwElse :: (Block.mk u ss).tokens)
  | .loop t c b => t :: (grouped c.tokens ++ b.tokens)
  | .fn t xs b => t :: (grouped (paramTokens (Ident.given xs)) ++ b.tokens)
  | .call t f as =>
    operandTokens (Power.ofKind .lparen) f.power f.tokens ++ t :: Expr.argTokens as

/-- The tokens of arguments with the closing parenthesis. -/
def Expr.argTokens : List Expr → List Token
  | [] => [mark .rparen]
  | [e] => e.tokens ++ [mark .rparen]
  | e :: e' :: es => e.tokens ++ mark .comma :: Expr.argTokens (e' :: es)

/-- The tokens of a statement. -/
def Stmt.tokens : Stmt → List Token
  | .missing => []
  | .bind t x e =>
    t :: (x.toList.map Ident.token ++ mark .assign :: (e.tokens ++ [mark .semicolon]))
  | .ret t e => t :: (e.tokens ++ [mark .semicolon])
  | .brk t => [t, mark .semicolon]
  | .expr _ e => e.tokens ++ [mark .semicolon]
  | .block b => b.tokens

/-- The tokens of statements. -/
def Stmt.tokensAll : List Stmt → List Token
  | [] => []
  | s :: ss => s.tokens ++ Stmt.tokensAll ss

/-- The tokens of a block. -/
def Block.tokens : Block → List Token
  | .missing => []
  | .mk t ss => t :: (Stmt.tokensAll ss ++ [mark .rbrace])

end

/-- The tokens of a program, with the parentheses it needs. -/
def Program.tokens (p : Program) : List Token := Stmt.tokensAll p.stmts

/-! ### Well-formed trees -/

/-- The name is that of its token, which is cut as one identifier. -/
def Ident.Filled (x : Ident) : Prop :=
  x.token.kind = .ident ∧ x.token.Lexes ∧ x.name = x.token.literal

mutual

/-- The tokens in the expression are the ones that reading fills in. -/
def Expr.Filled : Expr → Prop
  | .missing => True
  | .ident x => x.Filled
  | .int t v => t.kind = .int ∧ t.Lexes ∧ ∃ n, v = some n ∧ Text.int64OfDigits? t.literal = some n
  | .bool t v => t.kind = (if v then .kwTrue else .kwFalse) ∧ (t.literal, t.kind) ∈ Token.keywords
  | .str t v => t = ⟨.string, v⟩ ∧ '"' ∉ v.toList
  | .unary t op e => (t = mark .bang ∨ t = mark .minus) ∧ op = t.literal ∧ e.Filled
  | .binary t l op r =>
    t = mark t.kind ∧ Grammar.isBinary t.kind = true ∧ op = t.literal ∧ l.Filled ∧ r.Filled
  | .choice t c a b => t = mark .kwIf ∧ c.Filled ∧ a.Filled ∧ b.Filled
  | .loop t c b => t = mark .kwWhile ∧ c.Filled ∧ b.Filled
  | .fn t xs b => t = mark .kwFunction ∧ (∀ x, some x ∈ xs → x.Filled) ∧ b.Filled
  | .call t f as => t = mark .lparen ∧ f.Filled ∧ Expr.FilledAll as

/-- The tokens in the expressions are the ones that reading fills in. -/
def Expr.FilledAll : List Expr → Prop
  | [] => True
  | e :: es => e.Filled ∧ Expr.FilledAll es

/-- The tokens in the statement are the ones that reading fills in.  What an expression starts
    with is up to the parentheses around it.  A block by itself is never read. -/
def Stmt.Filled : Stmt → Prop
  | .missing => True
  | .bind t x e => t = mark .kwLet ∧ (∀ y ∈ x, y.Filled) ∧ e.Filled
  | .ret t e => t = mark .kwReturn ∧ e.Filled
  | .brk t => t = mark .kwBreak
  | .expr _ e => e.Filled
  | .block _ => False

/-- The tokens in the statements are the ones that reading fills in. -/
def Stmt.FilledAll : List Stmt → Prop
  | [] => True
  | s :: ss => s.Filled ∧ Stmt.FilledAll ss

/-- The tokens in the block are the ones that reading fills in. -/
def Block.Filled : Block → Prop
  | .missing => True
  | .mk t ss => t = mark .lbrace ∧ Stmt.FilledAll ss

end

/-- The trees that a source can have. -/
structure Program.WellFormed (p : Program) : Prop where
  /-- Nothing is missing but the values of bare returns and the alternatives of choices. -/
  complete : p.Complete
  /-- Every break stands in the body of a loop of its function. -/
  breaks : p.strayBreaks = 0
  /-- The tokens are the ones that reading fills in, those of expression statements aside. -/
  filled : Stmt.FilledAll p.stmts

/-! ### Every well-formed tree can be written out -/

/-- Parentheses are put around an operand that binds too loosely, which `Written` allows around
    any. -/
theorem Written.operandTokens {p : Power} {e : Expr} {ts : List Token}
    (h : Written false (.bare e) ts) :
    Written false (.operand p e) (operandTokens p e.power ts) := by
  rw [Incognita.operandTokens]
  split
  · next hp => exact .tight hp h
  · exact .operand (.whole h)

mutual

/-- **The tokens of a complete expression are a way to write it**, with parentheses only where
    operators need them. -/
theorem Expr.written : (e : Expr) → e.Complete → e.Filled → Written false (.bare e) e.tokens
  | .missing, hc, _ => hc.elim
  | .ident _, _, _ => .ident
  | .int _ _, _, _ => .int
  | .bool _ _, _, _ => .bool
  | .str _ _, _, _ => .str
  | .unary _ _ e, hc, hf => .unary (e.written hc hf.2.2).operandTokens
  | .binary _ l _ r, hc, hf =>
    .binary (l.written hc.1 hf.2.2.2.1).operandTokens (r.written hc.2 hf.2.2.2.2).operandTokens
  | .choice _ c a .missing, hc, hf =>
    .oneWay (.whole (c.written hc.1 hf.2.1)) (a.written hc.2.1 hf.2.2.1)
  | .choice _ c a (.mk u ss), hc, hf =>
    .twoWays (.whole (c.written hc.1 hf.2.1)) (a.written hc.2.1 hf.2.2.1)
      ((Block.mk u ss).written (hc.2.2.resolve_left (by simp)) hf.2.2.2)
  | .loop _ c b, hc, hf => .loop (.whole (c.written hc.1 hf.2.1)) (b.written hc.2 hf.2.2)
  -- `paramTokens` skips parameters that are missing, and here none is.
  | .fn _ _ b, hc, hf => by
    obtain ⟨xs, rfl⟩ := Ident.exists_map_some hc.1
    rw [Expr.tokens, Ident.given_map_some]
    exact .fn (b.written hc.2 hf.2.2)
  | .call _ f as, hc, hf =>
    .call (f.written hc.1 hf.2.1).operandTokens (Expr.written_args as hc.2 hf.2.2)

/-- The same for the arguments of a call. -/
theorem Expr.written_args : (es : List Expr) → Expr.CompleteAll es → Expr.FilledAll es →
    Written false (.args es) (Expr.argTokens es)
  | [], _, _ => .noArgs
  | [e], hc, hf => .lastArg (.whole (e.written hc.1 hf.1))
  | e :: e' :: es, hc, hf =>
    .nextArg (.whole (e.written hc.1 hf.1)) (Expr.written_args (e' :: es) hc.2 hf.2)

/-- The same for a statement. -/
theorem Stmt.written : (s : Stmt) → s.Complete → s.Filled → Written false (.stmt s) s.tokens
  | .missing, hc, _ => hc.elim
  | .bind _ none _, hc, _ => absurd rfl hc.1
  | .bind _ (some _) e, hc, hf => .bind (.whole (e.written hc.2 hf.2.2))
  | .ret _ e, hc, hf => by
    rcases hc with rfl | hc
    · exact .bareRet
    · exact .ret (.whole (e.written hc hf.2))
  | .brk _, _, _ => .brk
  | .expr _ e, hc, hf => .expr (.whole (e.written hc hf)) (fun h => absurd h (by simp))
  | .block _, _, hf => hf.elim

/-- The same for statements one after the other. -/
theorem Stmt.written_all : (ss : List Stmt) → Stmt.CompleteAll ss → Stmt.FilledAll ss →
    Written false (.stmts ss) (Stmt.tokensAll ss)
  | [], _, _ => .nil
  | s :: ss, hc, hf => .cons (s.written hc.1 hf.1) (Stmt.written_all ss hc.2 hf.2)

/-- The same for a block. -/
theorem Block.written : (b : Block) → b.Complete → b.Filled → Written false (.block b) b.tokens
  | .missing, hc, _ => hc.elim
  | .mk _ ss, hc, hf => .block (Stmt.written_all ss hc hf.2)

end

/-- **A well-formed tree can be written out.** -/
theorem Program.WellFormed.written {p : Program} (hp : p.WellFormed) : p.Written p.tokens :=
  Stmt.written_all p.stmts hp.complete hp.filled

/-! ### What is written out can be cut again -/

/-- The tokens in a phrase are the ones that reading fills in. -/
def Phrase.Filled : Phrase → Prop
  | .bare e | .operand _ e | .whole e => e.Filled
  | .args es => Expr.FilledAll es
  | .block b => b.Filled
  | .stmt s => s.Filled
  | .stmts ss => Stmt.FilledAll ss

namespace Token

/-- Each token is cut from its own spelling, and ends where it ends. -/
def AllLex (ts : List Token) : Prop := ∀ t ∈ ts, t.Lexes ∧ ¬ t.Unclosed

@[simp] theorem allLex_nil : AllLex [] := by simp [AllLex]

/-- Tokens can be spelled if the first one can, and the others. -/
theorem allLex_cons {t : Token} {ts : List Token} :
    AllLex (t :: ts) ↔ (t.Lexes ∧ ¬ t.Unclosed) ∧ AllLex ts :=
  List.forall_mem_cons

@[simp] theorem allLex_append {ts us : List Token} : AllLex (ts ++ us) ↔ AllLex ts ∧ AllLex us :=
  List.forall_mem_append

/-- An unclosed string is the only token that swallows what follows, and it is `illegal`. -/
theorem not_unclosed {t : Token} (h : t.kind ≠ .illegal) : ¬ t.Unclosed := fun hu => h hu.1

/-- Keywords and signs spell themselves. -/
@[simp] theorem allLex_mark {k : Kind} {ts : List Token} (h : ¬ k.text = "") :
    AllLex (mark k :: ts) ↔ AllLex ts := by
  have hu : ¬ (mark k).Unclosed := not_unclosed (by rintro rfl; exact h rfl)
  rw [allLex_cons, and_iff_right ⟨lexes_mark h, hu⟩]

theorem allLex_grouped {ts : List Token} (h : AllLex ts) : AllLex (grouped ts) := by
  simp [grouped, h, Kind.text]

/-- Names with commas between them can be spelled if the names can. -/
theorem allLex_paramTokens {xs : List Ident} (h : ∀ x ∈ xs, x.Filled) :
    AllLex (paramTokens xs) := by
  have hx : ∀ x : Ident, x.Filled → x.token.Lexes ∧ ¬ x.token.Unclosed :=
    fun x hx => ⟨hx.2.1, not_unclosed (by simp [hx.1])⟩
  fun_induction paramTokens xs with
  | case1 => simp
  | case2 x => simpa [allLex_cons] using hx x (h x List.mem_cons_self)
  | case3 x y xs ih =>
    obtain ⟨hxf, hxs⟩ := List.forall_mem_cons.1 h
    rw [allLex_cons, allLex_mark (by simp [Kind.text])]
    exact ⟨hx x hxf, ih hxs⟩

end Token

open Token

/-- **What is written out can be cut again.**  No token that is written out is illegal, so none
    could be a string that is left open. -/
theorem Written.lexes {strict : Bool} {X : Phrase} {ts : List Token} (h : Written strict X ts)
    (hf : X.Filled) : AllLex ts := by
  -- A token that is written out is a mark, or one of the tree that lexes by assumption.
  induction h with
  | ident => simpa [allLex_cons] using ⟨hf.2.1, not_unclosed (by simp [hf.1])⟩
  | int => simpa [allLex_cons] using ⟨hf.2.1, not_unclosed (by simp [hf.1])⟩
  | @bool t v =>
    have hk : t.kind ≠ .illegal := by
      rw [hf.1]
      split <;> simp
    simpa [allLex_cons] using ⟨lexes_keyword hf.2, not_unclosed hk⟩
  | str =>
    obtain ⟨rfl, hq⟩ := hf
    simpa [allLex_cons] using ⟨lexes_string hq, not_unclosed (by simp)⟩
  | unary _ ih =>
    obtain ⟨ht, -, he⟩ := hf
    rcases ht with rfl | rfl <;> simp [Kind.text, ih he]
  | @binary t l op r ls rs _ _ ihl ihr =>
    obtain ⟨ht, hb, -, hl, hr⟩ := hf
    have hk : t.kind.text ≠ "" := text_of_isBinary hb
    rw [ht, allLex_append, allLex_mark hk]
    exact ⟨ihl hl, ihr hr⟩
  | call _ _ ihf iha =>
    obtain ⟨rfl, hf, ha⟩ := hf
    simp [ihf hf, iha ha, Kind.text]
  | oneWay _ _ ihc iha =>
    obtain ⟨rfl, hc, ha, -⟩ := hf
    simp [allLex_grouped (ihc hc), iha ha, Kind.text]
  | twoWays _ _ _ ihc iha ihb =>
    obtain ⟨rfl, hc, ha, hb⟩ := hf
    simp [allLex_grouped (ihc hc), iha ha, ihb hb, Kind.text]
  | loop _ _ ihc ihb =>
    obtain ⟨rfl, hc, hb⟩ := hf
    simp [allLex_grouped (ihc hc), ihb hb, Kind.text]
  | fn _ ihb =>
    obtain ⟨rfl, hx, hb⟩ := hf
    simp [allLex_grouped (allLex_paramTokens (Ident.forall_map_some.1 hx)), ihb hb, Kind.text]
  | tight _ _ ih | whole _ ih => exact ih hf
  | operand _ ih | group _ ih => exact allLex_grouped (ih hf)
  | noArgs => simp [Kind.text]
  | lastArg _ ih => simp [ih hf.1, Kind.text]
  | nextArg _ _ ihe ihes => simp [ihe hf.1, ihes hf.2, Kind.text]
  | block _ ih =>
    obtain ⟨rfl, hs⟩ := hf
    simp [ih hs, Kind.text]
  | @bind t x e ts _ ih =>
    obtain ⟨rfl, hx, he⟩ := hf
    obtain ⟨hk, hlex, -⟩ := hx x rfl
    rw [allLex_mark (by simp [Kind.text]), allLex_cons]
    exact ⟨⟨hlex, not_unclosed (by simp [hk])⟩, by simp [ih he, Kind.text]⟩
  | bareRet =>
    obtain ⟨rfl, -⟩ := hf
    simp [Kind.text]
  | ret _ ih =>
    obtain ⟨rfl, he⟩ := hf
    simp [ih he, Kind.text]
  | brk =>
    obtain rfl := hf
    simp [Kind.text]
  | expr _ _ ih => simp [ih hf, Kind.text]
  | nil => simp
  | cons _ _ ihs ihss => simp [ihs hf.1, ihss hf.2]

end Incognita
