import Incognita.Proofs.Grammar.Derivation
import Incognita.Proofs.Reading.Sound

namespace Incognita

/-!
# Parser — nothing is lost, doubled or moved

Every token of a source that is read without faults has a place in the tree, but for those that
only hold others together.  Reading the tree from left to right gives the source back, less these.

* `Token.Kind.isPunctuation`, `Token.content` — the tokens that have no place, and the others;
* `Expr.inOrder`, `Stmt.inOrder`, `Block.inOrder`, `Program.inOrder` — the tokens of a tree, in the
  order in which the language writes its parts;
* `Parser.Reads.inOrder` — a call puts into the tree what it takes from the tokens;
* `inOrder_of_parse` — hence the tree of a faultless source has the tokens of that source.
-/

/-! ### Tokens that have a place in a tree -/

namespace Token

/-- Brackets, separators, the sign of a binding, the word in front of an alternative, and the end
    of the source. -/
def Kind.isPunctuation : Kind → Bool
  | .lparen | .rparen | .lbrace | .rbrace | .comma | .semicolon | .assign | .kwElse | .eof => true
  | _ => false

/-- The tokens other than punctuation. -/
def content (ts : List Token) : List Token := ts.filter fun t => !t.kind.isPunctuation

section

variable {t : Token} {ts : List Token} {k : Kind}

/-- A token that is no punctuation is content. -/
theorem content_keep (ht : t.kind = k) (hk : k.isPunctuation = false) :
    content (t :: ts) = t :: content ts := by
  rw [content, List.filter_cons_of_pos (by rw [ht, hk]; rfl), content]

/-- Punctuation is not. -/
theorem content_drop (ht : t.kind = k) (hk : k.isPunctuation = true) :
    content (t :: ts) = content ts := by
  rw [content, List.filter_cons_of_neg (by rw [ht, hk]; simp), content]

end

end Token

/-! ### The tokens of a tree -/

mutual

/-- The tokens of an expression, from left to right. -/
def Expr.inOrder : Expr → List Token
  | .missing => []
  | .ident x => [x.token]
  | .int t _ | .bool t _ | .str t _ => [t]
  | .unary t _ e => t :: e.inOrder
  | .binary t l _ r => l.inOrder ++ t :: r.inOrder
  | .choice t c a b => t :: (c.inOrder ++ (a.inOrder ++ b.inOrder))
  | .loop t c b => t :: (c.inOrder ++ b.inOrder)
  | .fn t xs b => t :: ((Ident.given xs).map Ident.token ++ b.inOrder)
  | .call _ f as => f.inOrder ++ Expr.inOrderAll as

/-- The tokens of expressions. -/
def Expr.inOrderAll : List Expr → List Token
  | [] => []
  | e :: es => e.inOrder ++ Expr.inOrderAll es

/-- The tokens of a statement, from left to right.  An expression stands for itself. -/
def Stmt.inOrder : Stmt → List Token
  | .missing => []
  | .bind t x e => t :: (x.toList.map Ident.token ++ e.inOrder)
  | .ret t e => t :: e.inOrder
  | .brk t => [t]
  | .expr _ e => e.inOrder
  | .block b => b.inOrder

/-- The tokens of statements. -/
def Stmt.inOrderAll : List Stmt → List Token
  | [] => []
  | s :: ss => s.inOrder ++ Stmt.inOrderAll ss

/-- The tokens of a block between its braces. -/
def Block.inOrder : Block → List Token
  | .missing => []
  | .mk _ ss => Stmt.inOrderAll ss

end

/-- The tokens of a program, from left to right. -/
def Program.inOrder (p : Program) : List Token := Stmt.inOrderAll p.stmts

namespace Parser

open Token (content content_keep content_drop)

/-! ### The functions that look at a few tokens only -/

/-- A semicolon that is passed over is no content. -/
theorem content_skipSemicolon (ts : List Token) : content (skipSemicolon ts) = content ts := by
  cases ts with
  | nil => rfl
  | cons t ts =>
    rw [skipSemicolon]
    split
    · next ht => rw [content_drop ht rfl]
    · rfl

/-- Between the parameters there are only commas, and a closing parenthesis behind them. -/
theorem content_moreParams {ts : List Token} {names : List Ident}
    (h : (moreParams ts).value = some names) :
    content ts = names.map Ident.token ++ content (moreParams ts).rest := by
  fun_induction moreParams ts generalizing names with
  | case5 t u ts ht hu ih =>
    simp only [Step.map, Option.map_eq_some_iff] at h
    obtain ⟨names', h', rfl⟩ := h
    rw [content_drop ht rfl, content_keep hu rfl, ih h']
    rfl
  | case3 t _ ht =>
    obtain rfl : [] = names := Option.some.inj h
    rw [content_drop ht rfl]
    rfl
  | case7 t u ts _ ht =>
    obtain rfl : [] = names := Option.some.inj h
    rw [content_drop ht rfl]
    rfl
  | case1 | case2 | case4 | case6 | case8 => simp at h

/-- The content of parameters are their names. -/
theorem content_params {ts mid : List Token} {names : List Ident}
    (h : params ts = ⟨some names, mid, []⟩) :
    content ts = names.map Ident.token ++ content mid := by
  cases ts with
  | nil => simp [params] at h
  | cons t ts =>
    rw [params] at h
    split at h
    · next ht =>
      obtain ⟨rfl, rfl⟩ : [] = names ∧ ts = mid := by simpa using h
      rw [content_drop ht rfl]
      rfl
    · split at h
      · next ht =>
        have hm : (moreParams ts).rest = mid := congrArg Step.rest h
        obtain ⟨names', hn, rfl⟩ := Option.map_eq_some_iff.1 (congrArg Step.value h)
        rw [content_keep ht rfl, content_moreParams hn, hm]
        rfl
      · simp at h

/-- An expression of one token has that token. -/
theorem inOrder_leaf {t : Token} {e : Expr} (h : leaf? t = some e) : e.inOrder = [t] := by
  cases hk : t.kind <;> simp only [leaf?, hk, reduceCtorEq, Option.some.injEq] at h
  case int =>
    obtain ⟨n, -, rfl⟩ := Option.map_eq_some_iff.1 h
    rw [Expr.inOrder]
  all_goals
    rw [← h, Expr.inOrder]
    try rfl

/-- No expression of one token is punctuation. -/
theorem isPunctuation_of_isLeaf {k : Token.Kind} (h : Grammar.isLeaf k = true) :
    k.isPunctuation = false := by
  cases k <;> first | rfl | exact absurd h (by decide)

/-- No operator is punctuation. -/
theorem isPunctuation_of_isBinary {k : Token.Kind} (h : Grammar.isBinary k = true) :
    k.isPunctuation = false := by
  cases k <;> first | rfl | exact absurd h (by decide)

/-! ### Calls -/

/-- The tokens of the trees that a call is given and makes part of what it reads. -/
def Task.given : Task → List Token
  | .operators _ _ left _ => left.inOrder
  | .choice _ t cond _ => t :: cond.inOrder
  | _ => []

/-- The tokens of what a call reads. -/
def Task.inOrder : (k : Task) → k.Result → List Token
  | .expr .., e | .operand .., e | .operators .., e | .choice .., e => Expr.inOrder e
  | .args .., es | .moreArgs .., es => Expr.inOrderAll (es.getD [])
  | .condition .., c => Expr.inOrder (c.getD .missing)
  | .block .., b => Block.inOrder b
  | .body .., ss => Stmt.inOrderAll ss
  | .stmt .., s => Stmt.inOrder (s.getD .missing)

/-- **A call moves tokens into the tree**: those of the trees it was given and those it takes, in
    this order, are the tokens of what it reads.  Operators take their left operand from the call
    before them, so it is among the trees that a call is given. -/
theorem Reads.inOrder {k : Task} {v : k.Result} {rest : List Token} {n : Nat}
    (h : Reads k v rest n) (hp : k.Powered) :
    k.given ++ content k.tokens = k.inOrder v ++ content rest := by
  induction h with
  | expr _ _ _ ihl ihw => exact (ihl trivial).trans (ihw hp)
  | @leaf _ t ts e h =>
    have ht := isPunctuation_of_isLeaf (isLeaf_of_leaf h)
    show content (t :: ts) = e.inOrder ++ content ts
    rw [content_keep rfl ht, inOrder_leaf h, List.singleton_append]
  | @unary _ t ts e rest _ hk _ ih =>
    have he : content ts = e.inOrder ++ content rest := ih lowest_le_unary
    show content (t :: ts) = t :: e.inOrder ++ content rest
    rcases hk with hk | hk <;> rw [content_keep hk rfl, he, List.cons_append]
  | @group _ t u ts e rest _ hk hu _ ih =>
    have he : content ts = e.inOrder ++ content (u :: rest) := ih (Nat.le_refl _)
    show content (t :: ts) = e.inOrder ++ content rest
    rw [content_drop hk rfl, he, content_drop hu rfl]
  | @choose _ t ts c mid e rest _ _ hk _ _ ihc ihw =>
    have hc : content ts = c.inOrder ++ content mid := ihc trivial
    have hw : t :: c.inOrder ++ content mid = e.inOrder ++ content rest := ihw trivial
    show content (t :: ts) = e.inOrder ++ content rest
    rw [content_keep hk rfl, hc, ← hw, List.cons_append]
  | @loop _ t ts c mid b rest _ _ hk _ _ ihc ihb =>
    have hc : content ts = c.inOrder ++ content mid := ihc trivial
    have hb : content mid = b.inOrder ++ content rest := ihb trivial
    show content (t :: ts) = t :: (c.inOrder ++ b.inOrder) ++ content rest
    rw [content_keep hk rfl, hc, hb, List.cons_append, List.append_assoc]
  | @fn _ t u ts names mid b rest _ hk hu hps _ ihb =>
    have hb : content mid = b.inOrder ++ content rest := ihb trivial
    show content (t :: u :: ts) =
      t :: ((Ident.given (names.map some)).map Ident.token ++ b.inOrder) ++ content rest
    rw [Ident.given_map_some, content_keep hk rfl, content_drop hu rfl, content_params hps, hb,
      List.cons_append, List.append_assoc]
  | stop _ => rfl
  -- What was read before an operator stands in front of it, in the tree as in the source.
  | @call _ _ left t ts es mid e rest _ _ _ hk _ _ iha ihw =>
    have ha : content ts = Expr.inOrderAll es ++ content mid := iha trivial
    have hw : left.inOrder ++ Expr.inOrderAll es ++ content mid = e.inOrder ++ content rest :=
      ihw hp
    show left.inOrder ++ content (t :: ts) = e.inOrder ++ content rest
    rw [content_drop hk rfl, ha, ← hw, List.append_assoc]
  | @binary _ _ left t ts r mid e rest _ _ hlt hk _ _ ihr ihw =>
    have ht := isPunctuation_of_isBinary (isBinary_of_lt hp hlt hk)
    have hr : content ts = r.inOrder ++ content mid := ihr (lowest_le_ofKind _)
    have hw : left.inOrder ++ t :: r.inOrder ++ content mid = e.inOrder ++ content rest := ihw hp
    show left.inOrder ++ content (t :: ts) = e.inOrder ++ content rest
    rw [content_keep rfl ht, hr, ← hw, List.append_assoc, List.cons_append]
  | noArgs hk | lastArg hk | close hk => exact content_drop hk rfl
  | @someArgs _ ts e mid es rest _ _ _ _ ihe ihes =>
    have he : content ts = e.inOrder ++ content mid := ihe (Nat.le_refl _)
    have hes : content mid = Expr.inOrderAll es ++ content rest := ihes trivial
    show content ts = e.inOrder ++ Expr.inOrderAll es ++ content rest
    rw [he, hes, List.append_assoc]
  | @nextArg _ t ts e mid es rest _ _ hk _ _ ihe ihes =>
    have he : content ts = e.inOrder ++ content mid := ihe (Nat.le_refl _)
    have hes : content mid = Expr.inOrderAll es ++ content rest := ihes trivial
    show content (t :: ts) = e.inOrder ++ Expr.inOrderAll es ++ content rest
    rw [content_drop hk rfl, he, hes, List.append_assoc]
  | @condition _ t u ts e rest _ hk hu _ ih =>
    have he : content ts = e.inOrder ++ content (u :: rest) := ih (Nat.le_refl _)
    show content (t :: ts) = e.inOrder ++ content rest
    rw [content_drop hk rfl, he, content_drop hu rfl]
  | @oneWay _ t c ts a rest _ _ _ iha =>
    have ha : content ts = a.inOrder ++ content rest := iha trivial
    show t :: c.inOrder ++ content ts = t :: (c.inOrder ++ (a.inOrder ++ [])) ++ content rest
    rw [ha, List.append_nil, List.cons_append, List.cons_append, List.append_assoc]
  | @twoWays _ t c u ts a mid b rest _ _ hu _ _ iha ihb =>
    have ha : content ts = a.inOrder ++ content (u :: mid) := iha trivial
    have hb : content mid = b.inOrder ++ content rest := ihb trivial
    show t :: c.inOrder ++ content ts =
      t :: (c.inOrder ++ (a.inOrder ++ b.inOrder)) ++ content rest
    rw [ha, content_drop hu rfl, hb, List.cons_append, List.cons_append, List.append_assoc,
      List.append_assoc]
  | block hk _ ih => exact (content_drop hk rfl).trans (ih trivial)
  | @next _ t ts s mid ss rest _ _ _ _ ihs ihss =>
    have hs : content (t :: ts) = s.inOrder ++ content mid := ihs trivial
    have hss : content mid = Stmt.inOrderAll ss ++ content rest := ihss trivial
    show content (t :: ts) = s.inOrder ++ Stmt.inOrderAll ss ++ content rest
    rw [hs, hss, List.append_assoc]
  | @bind _ t x a ts e rest _ hk hx ha _ ih =>
    have he : content ts = e.inOrder ++ content rest := ih (Nat.le_refl _)
    show content (t :: x :: a :: ts) = t :: x :: e.inOrder ++ content (skipSemicolon rest)
    rw [content_keep hk rfl, content_keep hx rfl, content_drop ha rfl, he, content_skipSemicolon,
      List.cons_append, List.cons_append]
  | @bareReturn _ t ts hk _ | @brk _ t ts hk =>
    show content (t :: ts) = [t] ++ content (skipSemicolon ts)
    rw [content_keep hk rfl, content_skipSemicolon, List.singleton_append]
  | @valueReturn _ t ts e rest _ hk _ ih =>
    have he : content ts = e.inOrder ++ content rest := ih (Nat.le_refl _)
    show content (t :: ts) = t :: e.inOrder ++ content (skipSemicolon rest)
    rw [content_keep hk rfl, he, content_skipSemicolon, List.cons_append]
  | @exprStmt _ t ts e rest _ _ ih =>
    have he : content (t :: ts) = e.inOrder ++ content rest := ih (Nat.le_refl _)
    show content (t :: ts) = e.inOrder ++ content (skipSemicolon rest)
    rw [he, content_skipSemicolon]

/-- The content of all tokens are the tokens of the statements. -/
theorem ReadsAll.inOrder {ts : List Token} {ss : List Stmt} {n : Nat} (h : ReadsAll ts ss n) :
    content ts = Stmt.inOrderAll ss := by
  induction h with
  | nil => rfl
  | @cons t ts s rest ss _ _ hs _ ih =>
    have hfirst : content (t :: ts) = s.inOrder ++ content rest := hs.inOrder trivial
    rw [hfirst, ih, Stmt.inOrderAll]

end Parser

/-! ### Sources -/

/-- **Reading loses, doubles and moves nothing.**  The tokens in the tree of a source without
    faults, from left to right, are the tokens of the source, less the punctuation and the end. -/
theorem inOrder_of_parse {source : String} (h : (parse source).diagnostics = []) :
    (parse source).program.inOrder = Token.content (tokenizeThrough source.toList 0) := by
  have hread := (readsAll_of_parse h).inOrder
  have hend : Token.content (tokenizeThrough source.toList 0) =
      Token.content (tokenize source.toList) := by
    rw [tokenizeThrough, Token.content, List.filter_append, ← Token.content]
    exact List.append_nil _
  rw [hend, hread]
  rfl

/-- The parentheses of `(a + b) * f(c)` shape the tree, and the other tokens are in it. -/
theorem inOrder_productOfCall : (parse "(a + b) * f(c);").diagnostics = [] ∧
    (parse "(a + b) * f(c);").program.inOrder =
      [⟨.ident, "a"⟩, ⟨.plus, "+"⟩, ⟨.ident, "b"⟩, ⟨.asterisk, "*"⟩, ⟨.ident, "f"⟩,
        ⟨.ident, "c"⟩] := by
  have hclean : (parse "(a + b) * f(c);").diagnostics = [] := by decide +kernel
  refine ⟨hclean, ?_⟩
  rw [inOrder_of_parse hclean]
  decide +kernel

end Incognita
