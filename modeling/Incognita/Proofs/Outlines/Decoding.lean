import Incognita.Proofs.Outlines.Trees
import Incognita.Proofs.Reading.InOrder
import Incognita.Proofs.Requests

namespace Incognita

open Token (mark)

/-!
# Outlines — the prefix form of a tree tells the tree

A nested list tells the tree that it comes from: the word in front says what a list stands for, and
the number of its items what parts it has.  Only the tokens are lost, and with them what
distinguishes a name from a truth value that is spelled alike.

* `Expr.untokened`, `Stmt.untokened`, `Program.untokened` — trees without their tokens;
* `Form.expr`, `Form.stmt`, `Form.block` — the trees that nested lists stand for;
* `Expr.expr_form`, `Stmt.stmt_form` — which are the trees they come from, without the tokens;
* `tree_eq_iff` — hence two sources with the same prefix form have the same tree.
-/

/-! ### Trees without tokens -/

/-- The name, as it stands in a tree without tokens. -/
def Ident.untokened (x : Ident) : Ident := ⟨.eof, x.name⟩

mutual

/-- The expression without its tokens. -/
def Expr.untokened : Expr → Expr
  | .missing => .missing
  | .ident x => .ident x.untokened
  | .int _ v => .int .eof v
  | .bool _ v => .bool .eof v
  | .str _ v => .str .eof v
  | .unary _ op e => .unary .eof op e.untokened
  | .binary _ l op r => .binary .eof l.untokened op r.untokened
  | .choice _ c a b => .choice .eof c.untokened a.untokened b.untokened
  | .loop _ c b => .loop .eof c.untokened b.untokened
  | .fn _ ps b => .fn .eof (ps.map (Option.map Ident.untokened)) b.untokened
  | .call _ f as => .call .eof f.untokened (Expr.untokenedAll as)

/-- The expressions without their tokens. -/
def Expr.untokenedAll : List Expr → List Expr
  | [] => []
  | e :: es => e.untokened :: Expr.untokenedAll es

/-- The statement without its tokens. -/
def Stmt.untokened : Stmt → Stmt
  | .missing => .missing
  | .bind _ x e => .bind .eof (x.map Ident.untokened) e.untokened
  | .ret _ e => .ret .eof e.untokened
  | .brk _ => .brk .eof
  | .expr _ e => .expr .eof e.untokened
  | .block b => .block b.untokened

/-- The statements without their tokens. -/
def Stmt.untokenedAll : List Stmt → List Stmt
  | [] => []
  | s :: ss => s.untokened :: Stmt.untokenedAll ss

/-- The block without its tokens. -/
def Block.untokened : Block → Block
  | .missing => .missing
  | .mk _ ss => .mk .eof (Stmt.untokenedAll ss)

end

/-- The program without its tokens. -/
def Program.untokened (p : Program) : Program := ⟨Stmt.untokenedAll p.stmts⟩

/-- The parameters that are there are the same without tokens. -/
theorem Ident.given_untokened (ps : List (Option Ident)) :
    given (ps.map (Option.map untokened)) = (given ps).map untokened := by
  induction ps with
  | nil => rfl
  | cons p ps ih => cases p <;> simpa [given] using ih

/-- Parameters are outlined by their names alone. -/
theorem paramForms_untokened (xs : List Ident) :
    paramForms (xs.map Ident.untokened) = paramForms xs := by
  fun_induction paramForms xs with
  | case1 | case2 => rfl
  | case3 x y xs ih =>
    rw [List.map_cons, List.map_cons, paramForms, ← List.map_cons, ih]
    rfl

mutual

/-- The nested list of an expression does not depend on its tokens. -/
theorem Expr.form_untokened : (e : Expr) → e.untokened.form = e.form
  | .missing | .ident _ | .int _ none | .int _ (some _) | .bool _ _ | .str _ _ => rfl
  | .unary _ _ e => by rw [Expr.untokened, Expr.form, e.form_untokened, Expr.form]
  | .binary _ l _ r => by
    rw [Expr.untokened, Expr.form, l.form_untokened, r.form_untokened, Expr.form]
  | .choice _ c a .missing => by
    rw [Expr.untokened, Block.untokened, Expr.form, c.form_untokened, a.form_untokened, Expr.form]
  | .choice _ c a (.mk _ ss) => by
    rw [Expr.untokened, Block.untokened, Expr.form, Block.form, c.form_untokened, a.form_untokened,
      Stmt.forms_untokened ss, Expr.form, Block.form]
  | .loop _ c b => by
    rw [Expr.untokened, Expr.form, c.form_untokened, b.form_untokened, Expr.form]
  | .fn _ ps b => by
    rw [Expr.untokened, Expr.form, Ident.given_untokened, paramForms_untokened, b.form_untokened,
      Expr.form]
  | .call _ f as => by
    rw [Expr.untokened, Expr.form, f.form_untokened, Expr.forms_untokened as, Expr.form]

/-- The same for the arguments of a call. -/
theorem Expr.forms_untokened : (es : List Expr) → Expr.forms (Expr.untokenedAll es) = Expr.forms es
  | [] => rfl
  | e :: es => by
    rw [Expr.untokenedAll, Expr.forms, e.form_untokened, Expr.forms_untokened es, Expr.forms]

/-- The same for a statement. -/
theorem Stmt.form_untokened : (s : Stmt) → s.untokened.form = s.form
  | .missing | .brk _ => rfl
  | .bind _ x e => by
    rw [Stmt.untokened, Stmt.form, e.form_untokened, Stmt.form, Option.map_map]
    rfl
  | .ret _ e => by rw [Stmt.untokened, Stmt.form, e.form_untokened, Stmt.form]
  | .expr _ e => e.form_untokened
  | .block b => b.form_untokened

/-- The same for the statements of a block. -/
theorem Stmt.forms_untokened : (ss : List Stmt) → Stmt.forms (Stmt.untokenedAll ss) = Stmt.forms ss
  | [] => rfl
  | s :: ss => by
    rw [Stmt.untokenedAll, Stmt.forms, s.form_untokened, Stmt.forms_untokened ss, Stmt.forms]

/-- The same for a block. -/
theorem Block.form_untokened : (b : Block) → b.untokened.form = b.form
  | .missing => rfl
  | .mk _ ss => by rw [Block.untokened, Block.form, Stmt.forms_untokened ss, Block.form]

end

/-! ### The trees that nested lists stand for -/

/-- The expression that a word stands for. -/
def Expr.ofWord (w : String) : Expr :=
  if w.toList.all Text.isDigit then .int .eof (Text.int64OfDigits? w)
  else if w = absent then .missing
  else if w = "true" then .bool .eof true
  else if w = "false" then .bool .eof false
  else .ident ⟨.eof, w⟩

/-- The parameter that a word stands for, which may have a comma behind it. -/
def Ident.ofForm : Form → Ident
  | .word w => ⟨.eof, String.ofList (w.toList.filter (· ≠ ','))⟩
  | .quoted _ | .list _ => ⟨.eof, ""⟩

mutual

/-- The expression that a nested list stands for. -/
def Form.expr : Form → Expr
  | .word w => .ofWord w
  | .quoted s => .str .eof s
  | .list (.word "call" :: f :: as) => .call .eof f.expr (Form.exprs as)
  | .list [.word "if", c, .list [_, a]] => .choice .eof c.expr a.block .missing
  | .list [.word "if", c, .list [_, a], .list [_, b]] => .choice .eof c.expr a.block b.block
  | .list [.word "while", c, b] => .loop .eof c.expr b.block
  | .list [.word "fn", .list ps, b] => .fn .eof (ps.map fun p => some (.ofForm p)) b.block
  | .list [.word op, e] => .unary .eof op e.expr
  | .list [.word op, l, r] => .binary .eof l.expr op r.expr
  | .list _ => .missing

/-- The expressions that nested lists stand for. -/
def Form.exprs : List Form → List Expr
  | [] => []
  | x :: xs => x.expr :: Form.exprs xs

/-- The statement that a nested list stands for. -/
def Form.stmt : Form → Stmt
  | .list [.word "let", .word x, v] => .bind .eof (some ⟨.eof, x⟩) v.expr
  | .list [.word "return", v] => .ret .eof v.expr
  | .list [.word "break"] => .brk .eof
  | e => .expr .eof e.expr

/-- The statements that nested lists stand for. -/
def Form.stmts : List Form → List Stmt
  | [] => []
  | x :: xs => x.stmt :: Form.stmts xs

/-- The block that a nested list stands for. -/
def Form.block : Form → Block
  | .list (_ :: ss) => .mk .eof (Form.stmts ss)
  | .word _ | .quoted _ | .list [] => .missing

end

/-! ### Which are the trees that they come from -/

/-- The token is no identifier that is spelled like a truth value in prefix form. -/
def Token.Unmistaken (t : Token) : Prop :=
  t.kind = .ident → t.literal ≠ "true" ∧ t.literal ≠ "false"

/-- A name that is not spelled like a truth value is decoded as that name: it does not start with a
    digit, and it is not the word for what is missing. -/
theorem Expr.ofWord_name {x : Ident} (hf : x.Filled) (hu : x.token.Unmistaken) :
    Expr.ofWord x.name = .ident x.untokened := by
  have hword := hf.isWord
  obtain ⟨htrue, hfalse⟩ := hu hf.1
  rw [← hf.2.2] at htrue hfalse
  -- Neither a digit nor the sign in front of the mark of a missing part starts a name.
  have hdigits : ¬ x.name.toList.all Text.isDigit = true := by
    intro hall
    cases hcs : x.name.toList with
    | nil => simp [hcs, Token.isWord] at hword
    | cons c cs =>
      rw [hcs, Token.isWord, Bool.and_eq_true_iff] at hword
      rw [hcs, List.all_cons, Bool.and_eq_true_iff] at hall
      rw [Token.not_isDigit_of_isWordStart hword.1] at hall
      exact absurd hall.1 (by simp)
  have habsent : x.name ≠ absent := by
    intro hname
    rw [hname] at hword
    exact absurd hword (by decide +kernel)
  rw [Expr.ofWord, if_neg hdigits, if_neg habsent, if_neg htrue, if_neg hfalse, Ident.untokened]

/-- A number is decoded as the literal with its value. -/
theorem Expr.ofWord_int {s : String} {n : Int64} (h : Text.int64OfDigits? s = some n) :
    Expr.ofWord (Text.ofInt64 n) = .int .eof (some n) := by
  obtain ⟨m, hm, hread⟩ := Text.int64OfDigits?_ofInt64 h
  have hdigits : (Text.ofNat m).toList.all Text.isDigit = true :=
    List.all_eq_true.2 fun c hc => Text.isDigit_of_mem_ofNat hc
  rw [hm, Expr.ofWord, if_pos hdigits, hread]

/-- A comma behind a name is left out. -/
theorem Ident.ofForm_word {x : Ident} {more : String} (hf : x.Filled)
    (hmore : ∀ c ∈ more.toList, c = ',') : Ident.ofForm (.word (x.name ++ more)) = x.untokened := by
  have hname : x.name.toList.filter (· ≠ ',') = x.name.toList := by
    rw [List.filter_eq_self]
    intro c hc
    have hpart := hf.isWordPart c hc
    have hcomma : c ≠ ',' := by
      rintro rfl
      exact absurd hpart (by decide +kernel)
    exact decide_eq_true hcomma
  have hnone : more.toList.filter (· ≠ ',') = [] := by
    rw [List.filter_eq_nil_iff]
    intro c hc
    simp [hmore c hc]
  rw [Ident.ofForm, String.toList_append, List.filter_append, hname, hnone, List.append_nil,
    String.ofList_toList, Ident.untokened]

/-- Parameters are decoded by taking off the commas behind them, which no name has in it. -/
theorem ofForm_paramForms {xs : List Ident} (h : ∀ x ∈ xs, x.Filled) :
    (paramForms xs).map (fun p => some (Ident.ofForm p)) =
      (xs.map some).map (Option.map Ident.untokened) := by
  fun_induction paramForms xs with
  | case1 => rfl
  | case2 x =>
    have hx := @Ident.ofForm_word x "" (h x List.mem_cons_self) (by simp)
    rw [String.append_empty] at hx
    rw [List.map_cons, hx]
    rfl
  | case3 x y xs ih =>
    obtain ⟨hx, hxs⟩ := List.forall_mem_cons.1 h
    rw [List.map_cons, Ident.ofForm_word hx (by simp), ih hxs]
    rfl

/-- The words in front of lists, but for the operators. -/
def headWords : List String := ["call", "if", "while", "fn", "let", "return", "break"]

/-- An operator is none of the other words in front of a list. -/
theorem ne_headWord {t : Token} (h : t = mark .bang ∨ t = mark .minus ∨
    t = mark t.kind ∧ Grammar.isBinary t.kind = true) : ∀ w ∈ headWords, t.literal ≠ w := by
  have htable : ∀ k, Grammar.isBinary k = true → ∀ w ∈ headWords, (mark k).literal ≠ w := by
    intro k hk
    cases k <;> first | exact absurd hk (by decide) | decide
  rcases h with rfl | rfl | ⟨ht, hb⟩
  · decide
  · decide
  · rw [ht]
    exact htable t.kind hb

/-- An expression does not start like another statement. -/
theorem Expr.form_ne_list {e : Expr} (hf : e.Filled) {w : String}
    (hw : w ∈ ["let", "return", "break"]) (xs : List Form) : e.form ≠ .list (.word w :: xs) := by
  intro heq
  have hhead : w ∈ headWords := List.mem_of_mem_drop (show w ∈ headWords.drop 4 from hw)
  -- The three words are not among those in front of the lists of expressions.
  have hother : w ∉ ["call", "if", "while", "fn"] := by
    intro hmem
    simp only [List.mem_cons, List.not_mem_nil, or_false] at hw hmem
    rcases hw with rfl | rfl | rfl <;> exact absurd hmem (by decide)
  cases e with
  | missing | ident | bool | str => simp [Expr.form] at heq
  | int t v => cases v <;> simp [Expr.form] at heq
  | unary t op e =>
    obtain ⟨ht, rfl, -⟩ := hf
    simp only [Expr.form, Form.list.injEq, List.cons.injEq, Form.word.injEq] at heq
    have hop := ne_headWord (ht.imp_right .inl)
    exact hop w hhead heq.1
  | binary t l op r =>
    obtain ⟨ht, hb, rfl, -⟩ := hf
    simp only [Expr.form, Form.list.injEq, List.cons.injEq, Form.word.injEq] at heq
    exact ne_headWord (.inr (.inr ⟨ht, hb⟩)) w hhead heq.1
  | choice t c a b =>
    cases b <;> simp only [Expr.form, Form.list.injEq, List.cons.injEq, Form.word.injEq] at heq <;>
      exact hother (by simp [← heq.1])
  | loop | fn | call =>
    simp only [Expr.form, Form.list.injEq, List.cons.injEq, Form.word.injEq] at heq
    exact hother (by simp [← heq.1])

/-- No expression has the outline of a binding, a return or a break, so its outline is decoded as an
    expression statement. -/
theorem Expr.stmt_form {e : Expr} (hf : e.Filled) : e.form.stmt = .expr .eof e.form.expr := by
  rw [Form.stmt]
  · exact fun x v => form_ne_list hf (by decide) [.word x, v]
  · exact fun v => form_ne_list hf (by decide) [v]
  · exact form_ne_list hf (by decide) []

mutual

/-- **Decoding the outline of an expression gives the expression**, without its tokens.  The head of
    a list tells which rule has made it, as no operator is spelled like one of the `headWords`. -/
theorem Expr.expr_form : (e : Expr) → e.Complete → e.Filled → (∀ t ∈ e.inOrder, t.Unmistaken) →
    e.form.expr = e.untokened
  | .missing, hc, _, _ => hc.elim
  | .ident x, _, hf, hu => by
    rw [Expr.form, Form.expr, Expr.ofWord_name hf (hu _ (List.mem_singleton_self _)),
      Expr.untokened]
  | .int _ none, hc, _, _ => absurd rfl hc
  | .int _ (some n), _, hf, _ => by
    obtain ⟨-, -, m, hn, hm⟩ := hf
    obtain rfl := Option.some.inj hn
    rw [Expr.form, Form.expr, Expr.ofWord_int hm, Expr.untokened]
  | .bool _ true, _, _, _ | .bool _ false, _, _, _ => by
    rw [Expr.form, Form.expr, Expr.untokened]
    rfl
  | .str _ _, _, _, _ => by rw [Expr.form, Form.expr, Expr.untokened]
  | .unary t _ e, hc, hf, hu => by
    obtain ⟨ht, rfl, he⟩ := hf
    have hop := ne_headWord (ht.imp_right .inl)
    rw [Expr.form, Form.expr, e.expr_form hc he (List.forall_mem_cons.1 hu).2, Expr.untokened]
    exact hop "call" (by decide)
  | .binary t l _ r, hc, hf, hu => by
    obtain ⟨ht, hb, rfl, hl, hr⟩ := hf
    obtain ⟨hul, hur⟩ := List.forall_mem_append.1 hu
    have hop := ne_headWord (.inr (.inr ⟨ht, hb⟩))
    rw [Expr.form, Form.expr, l.expr_form hc.1 hl hul,
      r.expr_form hc.2 hr (List.forall_mem_cons.1 hur).2, Expr.untokened]
    · exact hop "call" (by decide)
    · exact fun _ _ h => absurd h (hop "if" (by decide))
    · exact hop "while" (by decide)
    · exact fun _ h => absurd h (hop "fn" (by decide))
  | .choice _ c a .missing, hc, hf, hu => by
    obtain ⟨huc, hua⟩ := List.forall_mem_append.1 (List.forall_mem_cons.1 hu).2
    rw [Expr.form, Form.expr, c.expr_form hc.1 hf.2.1 huc,
      a.block_form hc.2.1 hf.2.2.1 (List.forall_mem_append.1 hua).1, Expr.untokened,
      Block.untokened]
  | .choice _ c a (.mk t ss), hc, hf, hu => by
    obtain ⟨huc, hub⟩ := List.forall_mem_append.1 (List.forall_mem_cons.1 hu).2
    obtain ⟨hua, hub⟩ := List.forall_mem_append.1 hub
    rw [Expr.form, Form.expr, c.expr_form hc.1 hf.2.1 huc, a.block_form hc.2.1 hf.2.2.1 hua,
      (Block.mk t ss).block_form (hc.2.2.resolve_left (by simp)) hf.2.2.2 hub, Expr.untokened]
  | .loop _ c b, hc, hf, hu => by
    obtain ⟨huc, hub⟩ := List.forall_mem_append.1 (List.forall_mem_cons.1 hu).2
    rw [Expr.form, Form.expr, c.expr_form hc.1 hf.2.1 huc, b.block_form hc.2 hf.2.2 hub,
      Expr.untokened]
  -- A function of a complete tree has all its parameters, so none is lost in the outline.
  | .fn _ ps b, hc, hf, hu => by
    obtain ⟨-, hub⟩ := List.forall_mem_append.1 (List.forall_mem_cons.1 hu).2
    obtain ⟨xs, rfl⟩ := Ident.exists_map_some hc.1
    rw [Expr.form, Ident.given_map_some, Form.expr,
      ofForm_paramForms (Ident.forall_map_some.1 hf.2.1), b.block_form hc.2 hf.2.2 hub,
      Expr.untokened]
  | .call _ f as, hc, hf, hu => by
    obtain ⟨huf, hua⟩ := List.forall_mem_append.1 hu
    rw [Expr.form, Form.expr, f.expr_form hc.1 hf.2.1 huf, Expr.exprs_forms as hc.2 hf.2.2 hua,
      Expr.untokened]

/-- The same for the arguments of a call. -/
theorem Expr.exprs_forms : (es : List Expr) → Expr.CompleteAll es → Expr.FilledAll es →
    (∀ t ∈ Expr.inOrderAll es, t.Unmistaken) → Form.exprs (Expr.forms es) = Expr.untokenedAll es
  | [], _, _, _ => by rw [Expr.forms, Form.exprs, Expr.untokenedAll]
  | e :: es, hc, hf, hu => by
    obtain ⟨hue, hues⟩ := List.forall_mem_append.1 hu
    rw [Expr.forms, Form.exprs, e.expr_form hc.1 hf.1 hue, Expr.exprs_forms es hc.2 hf.2 hues,
      Expr.untokenedAll]

/-- The same for a statement. -/
theorem Stmt.stmt_form : (s : Stmt) → s.Complete → s.Filled → (∀ t ∈ s.inOrder, t.Unmistaken) →
    s.form.stmt = s.untokened
  | .missing, hc, _, _ => hc.elim
  | .bind _ none _, hc, _, _ => absurd rfl hc.1
  | .bind _ (some x) e, hc, hf, hu => by
    obtain ⟨-, hue⟩ := List.forall_mem_append.1 (List.forall_mem_cons.1 hu).2
    rw [Stmt.form, Form.stmt, e.expr_form hc.2 hf.2.2 hue, Stmt.untokened]
    rfl
  | .ret _ e, hc, hf, hu => by
    rw [Stmt.form, Form.stmt, Stmt.untokened]
    rcases hc with rfl | hc
    · rw [Expr.form, Form.expr, Expr.untokened]
      rfl
    · rw [e.expr_form hc hf.2 (List.forall_mem_cons.1 hu).2]
  | .brk _, _, _, _ => by rw [Stmt.form, Form.stmt, Stmt.untokened]
  | .expr _ e, hc, hf, hu => by
    rw [Stmt.form, Expr.stmt_form hf, e.expr_form hc hf hu, Stmt.untokened]
  | .block _, _, hf, _ => hf.elim

/-- The same for the statements of a block. -/
theorem Stmt.stmts_forms : (ss : List Stmt) → Stmt.CompleteAll ss → Stmt.FilledAll ss →
    (∀ t ∈ Stmt.inOrderAll ss, t.Unmistaken) → Form.stmts (Stmt.forms ss) = Stmt.untokenedAll ss
  | [], _, _, _ => by rw [Stmt.forms, Form.stmts, Stmt.untokenedAll]
  | s :: ss, hc, hf, hu => by
    obtain ⟨hus, huss⟩ := List.forall_mem_append.1 hu
    rw [Stmt.forms, Form.stmts, s.stmt_form hc.1 hf.1 hus, Stmt.stmts_forms ss hc.2 hf.2 huss,
      Stmt.untokenedAll]

/-- The same for a block. -/
theorem Block.block_form : (b : Block) → b.Complete → b.Filled → (∀ t ∈ b.inOrder, t.Unmistaken) →
    b.form.block = b.untokened
  | .missing, hc, _, _ => hc.elim
  | .mk _ ss, hc, hf, hu => by
    rw [Block.form, Form.block, Stmt.stmts_forms ss hc hf.2 hu, Block.untokened]

end

/-! ### Sources with the same prefix form -/

instance (t : Token) : Decidable t.Unmistaken := inferInstanceAs (Decidable (_ → _))

/-- Asked for the tree of a source without faults, a session gives its prefix form. -/
theorem Session.tree_of_clean {s : Session} {source : String}
    (h : (parse source).diagnostics = []) :
    ∃ text, (parse source).program.outline = some text ∧
      (s.tree source).map Turn.result = some (.ok text) := by
  obtain ⟨t, ht⟩ := s.tree_ends source
  have htree := ht
  simp only [Session.tree, Session.error?_of_clean h, Option.bind_eq_bind, Option.bind_eq_some_iff,
    Option.some.injEq] at htree
  obtain ⟨text, htext, rfl⟩ := htree
  exact ⟨text, htext, by rw [ht]; rfl⟩

/-- The nested lists of the statements of a source stand for its tree. -/
theorem stmts_of_parse {source : String} (h : (parse source).diagnostics = [])
    (hu : ∀ t ∈ tokenize source.toList, t.Unmistaken) :
    Form.stmts (Stmt.forms (parse source).program.stmts) =
      (parse source).program.untokened.stmts := by
  have hp := wellFormed_of_parse h
  -- The tokens in the tree are tokens of the source.
  have hinOrder := (readsAll_of_parse h).inOrder
  refine Stmt.stmts_forms _ hp.complete hp.filled fun t ht => hu t ?_
  rw [← hinOrder] at ht
  exact (List.mem_filter.1 ht).1

/-- **The prefix form of a source tells its tree.**  Two sources without faults, in which no
    identifier is spelled like a truth value in prefix form, have prefix forms, and these are the
    same if and only if they have the same tree but for the tokens in it. -/
theorem tree_eq_iff {s s' : Session} {a b : String} (ha : (parse a).diagnostics = [])
    (hb : (parse b).diagnostics = []) (hua : ∀ t ∈ tokenize a.toList, t.Unmistaken)
    (hub : ∀ t ∈ tokenize b.toList, t.Unmistaken) :
    (∃ text, (s.tree a).map Turn.result = some (.ok text)) ∧
    (∃ text, (s'.tree b).map Turn.result = some (.ok text)) ∧
    ((s.tree a).map Turn.result = (s'.tree b).map Turn.result ↔
      (parse a).program.untokened = (parse b).program.untokened) := by
  obtain ⟨text, htext, ht⟩ := s.tree_of_clean ha
  obtain ⟨text', htext', ht'⟩ := s'.tree_of_clean hb
  refine ⟨⟨text, ht⟩, ⟨text', ht'⟩, ?_⟩
  rw [ht, ht', Option.some.injEq, Except.ok.injEq, ← String.toList_inj,
    ← Program.joined_forms htext, ← Program.joined_forms htext']
  constructor
  · intro h
    -- Equal texts are made of equal nested lists, and these are decoded to the trees.
    have hforms := Form.joined_inj (.inr rfl)
      (Stmt.properAll_forms _ (wellFormed_of_parse ha).filled)
      (Stmt.properAll_forms _ (wellFormed_of_parse hb).filled) h
    have hstmts := stmts_of_parse ha hua
    rw [hforms, stmts_of_parse hb hub] at hstmts
    exact congrArg Program.mk hstmts.symm
  · intro h
    have hstmts : Stmt.untokenedAll (parse a).program.stmts =
        Stmt.untokenedAll (parse b).program.stmts := congrArg Program.stmts h
    rw [← Stmt.forms_untokened, hstmts, Stmt.forms_untokened]

example : (parse "true").program.outline = (parse "verdad").program.outline := by decide +kernel

/-- A choice and a number in few characters. -/
def tersely : String := "si(f(1))\x7bdevuelve\x7dtonces\x7b\"x y\"\x7d;-2"

/-- The same, with more of what does not change the tree. -/
def atLength : String :=
  "si (f ((01))) \x7b devuelve; \x7d tonces \x7b (\"x y\"); \x7d ; (-02);"

/-- They have the same prefix form, and so the same tree. -/
theorem untokened_tersely_eq :
    (parse tersely).program.untokened = (parse atLength).program.untokened := by
  have houtline : (parse tersely).program.outline = (parse atLength).program.outline := by
    decide +kernel
  have ha : (parse tersely).diagnostics = [] := by decide +kernel
  have hb : (parse atLength).diagnostics = [] := by decide +kernel
  let s := Session.ofSettings CommandLine.ansi .default
  obtain ⟨text, htext, ht⟩ := s.tree_of_clean ha
  obtain ⟨text', htext', ht'⟩ := s.tree_of_clean hb
  have hsame : text = text' := Option.some.inj (htext.symm.trans (houtline.trans htext'))
  refine (@tree_eq_iff s s _ _ ha hb (by decide +kernel) (by decide +kernel)).2.2.1 ?_
  rw [ht, ht', hsame]

end Incognita
