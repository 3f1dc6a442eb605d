import Incognita.Proofs.Outlines.Forms
import Incognita.Proofs.Reading.Filled
import Incognita.Tree.Outline

namespace Incognita

open Token (mark)

/-!
# Outlines — trees as nested lists

The prefix form of a tree is the text of a nested list.  Names, numbers and operators are its words,
so they have to be without the characters that end a word, and strings without quotes.

* `Expr.form`, `Stmt.form`, `Block.form` — trees as nested lists;
* `Expr.text_form`, `Program.joined_forms` — their prefix form is the text of the list;
* `Expr.proper_form`, `Stmt.properAll_forms` — the list of a tree that was read is proper.
-/

/-! ### Trees as nested lists -/

/-- The names of parameters, with a comma behind each but the last. -/
def paramForms : List Ident → List Form
  | [] => []
  | [x] => [.word x.name]
  | x :: y :: xs => .word (x.name ++ ",") :: paramForms (y :: xs)

mutual

/-- An expression as a nested list. -/
def Expr.form : Expr → Form
  | .missing | .int _ none => .word absent
  | .ident x => .word x.name
  | .int _ (some n) => .word (Text.ofInt64 n)
  | .bool _ b => .word (if b then "true" else "false")
  | .str _ v => .quoted v
  | .unary _ op e => .list [.word op, e.form]
  | .binary _ l op r => .list [.word op, l.form, r.form]
  | .choice _ c a .missing => .list [.word "if", c.form, .list [.word "then", a.form]]
  | .choice _ c a (.mk t ss) =>
    .list [.word "if", c.form, .list [.word "then", a.form],
      .list [.word "else", (Block.mk t ss).form]]
  | .loop _ c b => .list [.word "while", c.form, b.form]
  | .fn _ ps b => .list [.word "fn", .list (paramForms (Ident.given ps)), b.form]
  | .call _ f as => .list (.word "call" :: f.form :: Expr.forms as)

/-- Expressions as nested lists. -/
def Expr.forms : List Expr → List Form
  | [] => []
  | e :: es => e.form :: Expr.forms es

/-- A statement as a nested list. -/
def Stmt.form : Stmt → Form
  | .missing => .word absent
  | .bind _ x e => .list [.word "let", .word ((x.map Ident.name).getD absent), e.form]
  | .ret _ e => .list [.word "return", e.form]
  | .brk _ => .list [.word "break"]
  | .expr _ e => e.form
  | .block b => b.form

/-- Statements as nested lists. -/
def Stmt.forms : List Stmt → List Form
  | [] => []
  | s :: ss => s.form :: Stmt.forms ss

/-- A block as a nested list. -/
def Block.form : Block → Form
  | .missing => .word absent
  | .mk _ ss => .list (.word "scope" :: Stmt.forms ss)

end

/-! ### Prefix forms are the texts of nested lists -/

section

attribute [local simp] Form.text Form.joined Form.following

/-- The names of parameters with commas behind them, put together with blanks, are what stands
    between the parentheses of an outline. -/
theorem joined_paramForms (xs : List Ident) :
    Form.joined ' ' (paramForms xs) = (", ".intercalate (xs.map Ident.name)).toList := by
  fun_induction paramForms xs with
  | case1 => rfl
  | case2 x => simp
  | case3 x y xs ih =>
    have hforms : paramForms (y :: xs) ≠ [] := by cases xs <;> simp [paramForms]
    have hnames : (y :: xs).map Ident.name ≠ [] := by simp
    rw [List.map_cons, String.intercalate_cons_of_ne_nil hnames, Form.joined_cons_of_ne_nil hforms,
      ih]
    simp

mutual

/-- The prefix form of an expression, if it has one, is the text of its nested list. -/
theorem Expr.text_form : (e : Expr) → {text : String} → e.outline = some text →
    e.form.text = text.toList
  | .missing, _, h | .ident _, _, h | .int _ none, _, h | .int _ (some _), _, h => by
    rw [← Option.some.inj h]
    rfl
  | .bool _ b, _, h => by
    rw [← Option.some.inj h]
    cases b <;> rfl
  | .str _ _, _, h => by
    rw [← Option.some.inj h]
    simp [Expr.form]
  | .unary _ _ e, _, h => by
    simp only [Expr.outline, Option.bind_eq_bind, Option.bind_eq_some_iff, Option.some.injEq] at h
    obtain ⟨e', he, rfl⟩ := h
    simp [Expr.form, e.text_form he]
  | .binary _ l _ r, _, h => by
    simp only [Expr.outline, Option.bind_eq_bind, Option.bind_eq_some_iff, Option.some.injEq] at h
    obtain ⟨l', hl, r', hr, rfl⟩ := h
    simp [Expr.form, l.text_form hl, r.text_form hr]
  | .choice _ c a .missing, _, h => by
    simp only [Expr.outline, Block.outlineElse, Option.bind_eq_bind, Option.bind_eq_some_iff,
      Option.some.injEq] at h
    obtain ⟨c', hc, a', ha, _, rfl, rfl⟩ := h
    simp [Expr.form, c.text_form hc, a.text_form ha]
  | .choice _ c a (.mk t ss), _, h => by
    simp only [Expr.outline, Block.outlineElse, Option.bind_eq_bind, Option.bind_eq_some_iff,
      Option.some.injEq] at h
    obtain ⟨c', hc, a', ha, _, ⟨ss', hss, rfl⟩, rfl⟩ := h
    simp [Expr.form, Block.form, c.text_form hc, a.text_form ha, Stmt.following_forms ss hss]
  | .loop _ c b, _, h => by
    simp only [Expr.outline, Option.bind_eq_bind, Option.bind_eq_some_iff, Option.some.injEq] at h
    obtain ⟨c', hc, b', hb, rfl⟩ := h
    simp [Expr.form, c.text_form hc, b.text_form hb]
  | .fn _ ps b, _, h => by
    simp only [Expr.outline, Option.bind_eq_bind, Option.bind_eq_some_iff, Option.some.injEq] at h
    obtain ⟨names, hnames, b', hb, rfl⟩ := h
    -- There is an outline, so no parameter is missing and `Ident.given` leaves none out.
    rw [Ident.present?_eq_some_iff.1 hnames]
    simp [Expr.form, joined_paramForms, b.text_form hb]
  | .call _ f as, _, h => by
    simp only [Expr.outline, Option.bind_eq_bind, Option.bind_eq_some_iff, Option.some.injEq] at h
    obtain ⟨f', hf, as', has, rfl⟩ := h
    simp [Expr.form, f.text_form hf, Expr.following_forms as has]

/-- The same for arguments, each with a blank in front. -/
theorem Expr.following_forms : (es : List Expr) → {text : String} →
    Expr.outlines es = some text → Form.following ' ' (Expr.forms es) = text.toList
  | [], _, h => by
    rw [← Option.some.inj h]
    rfl
  | e :: es, _, h => by
    simp only [Expr.outlines, Option.bind_eq_bind, Option.bind_eq_some_iff, Option.some.injEq] at h
    obtain ⟨first, hfirst, rest, hrest, rfl⟩ := h
    simp [Expr.forms, e.text_form hfirst, Expr.following_forms es hrest]

/-- The same for a statement. -/
theorem Stmt.text_form : (s : Stmt) → {text : String} → s.outline = some text →
    s.form.text = text.toList
  | .missing, _, h => by
    rw [← Option.some.inj h]
    rfl
  | .brk _, _, h => by
    rw [← Option.some.inj h]
    simp [Stmt.form]
  | .bind _ _ e, _, h | .ret _ e, _, h => by
    simp only [Stmt.outline, Option.bind_eq_bind, Option.bind_eq_some_iff, Option.some.injEq] at h
    obtain ⟨e', he, rfl⟩ := h
    simp [Stmt.form, e.text_form he]
  | .expr _ e, _, h => e.text_form h
  | .block b, _, h => b.text_form h

/-- The same for the statements of a block, each with a blank in front. -/
theorem Stmt.following_forms : (ss : List Stmt) → {text : String} →
    Stmt.outlines ss = some text → Form.following ' ' (Stmt.forms ss) = text.toList
  | [], _, h => by
    rw [← Option.some.inj h]
    rfl
  | s :: ss, _, h => by
    simp only [Stmt.outlines, Option.bind_eq_bind, Option.bind_eq_some_iff, Option.some.injEq] at h
    obtain ⟨first, hfirst, rest, hrest, rfl⟩ := h
    simp [Stmt.forms, s.text_form hfirst, Stmt.following_forms ss hrest]

/-- The same for a block. -/
theorem Block.text_form : (b : Block) → {text : String} → b.outline = some text →
    b.form.text = text.toList
  | .missing, _, h => by
    rw [← Option.some.inj h]
    rfl
  | .mk _ ss, _, h => by
    simp only [Block.outline, Option.bind_eq_bind, Option.bind_eq_some_iff, Option.some.injEq] at h
    obtain ⟨ss', hss, rfl⟩ := h
    simp [Block.form, Stmt.following_forms ss hss]

end

/-- The prefix form of a program is the joined text of the nested lists of its statements. -/
theorem Program.joined_forms {p : Program} {text : String} (h : p.outline = some text) :
    Form.joined '\n' (Stmt.forms p.stmts) = text.toList := by
  obtain ⟨ss⟩ := p
  obtain ⟨lines, hlines, rfl⟩ := Option.map_eq_some_iff.1 h
  clear h
  show Form.joined '\n' (Stmt.forms ss) = _
  induction ss generalizing lines with
  | nil =>
    obtain rfl := Option.some.inj hlines
    rfl
  | cons s ss ih =>
    simp only [Stmt.outlineLines, Option.bind_eq_bind, Option.bind_eq_some_iff,
      Option.some.injEq] at hlines
    obtain ⟨first, hfirst, rest, hrest, rfl⟩ := hlines
    cases ss with
    | nil =>
      obtain rfl := Option.some.inj hrest
      simp [Stmt.forms, s.text_form hfirst]
    | cons s' ss =>
      have hforms : Stmt.forms (s' :: ss) ≠ [] := by simp [Stmt.forms]
      have hlines : rest ≠ [] := by
        rintro rfl
        simp [Stmt.outlineLines, Option.bind_eq_some_iff] at hrest
      rw [String.intercalate_cons_of_ne_nil hlines, Stmt.forms,
        Form.joined_cons_of_ne_nil hforms, ih rest hrest, s.text_form hfirst]
      simp

end

/-! ### The nested lists of trees are proper -/

/-- The value of a literal is shown by digits with the same value, as it is not negative. -/
theorem Text.int64OfDigits?_ofInt64 {s : String} {n : Int64} (h : Text.int64OfDigits? s = some n) :
    ∃ m : Nat, Text.ofInt64 n = Text.ofNat m ∧ Text.int64OfDigits? (Text.ofNat m) = some n := by
  rw [Text.int64OfDigits?] at h
  split at h
  · next hlt =>
    obtain rfl := Option.some.inj h
    refine ⟨Text.natOfDigits s.toList, ?_, ?_⟩
    · rw [Text.ofInt64, Int64.toInt_ofNat_of_lt hlt]
      rfl
    -- Leading zeros are gone, which do not count for the value.
    · have hdigits : Text.natOfDigits (Text.ofNat (Text.natOfDigits s.toList)).toList =
          Text.natOfDigits s.toList := by
        rw [Text.ofNat, String.toList_ofList]
        exact Nat.ofDigitChars_ten_toDigits
      rw [Text.int64OfDigits?, hdigits, if_pos hlt]
  · exact absurd h (by simp)

/-- A number is shown by digits. -/
theorem Text.isDigit_of_mem_ofNat {n : Nat} {c : Char} (h : c ∈ (Text.ofNat n).toList) :
    Text.isDigit c = true := by
  rw [Text.ofNat, String.toList_ofList] at h
  have hdigit := Nat.isDigit_of_mem_toDigits (by decide) (by decide) h
  simpa [Char.isDigit, Text.isDigit, Char.le_def] using hdigit

/-- No blank, parenthesis or quote is part of a name. -/
theorem Form.isPlain_of_isWordPart {c : Char} (h : Text.isWordPart c = true) :
    Form.isPlain c = true := by
  unfold Form.isPlain
  split
  iterate 5 exact absurd h (by decide +kernel)
  rfl

/-- The name of an identifier with the right token is a word. -/
theorem Ident.Filled.isWord {x : Ident} (h : x.Filled) : Token.isWord x.name.toList = true := by
  obtain ⟨hk, hlex, hname⟩ := h
  have hmem : x.token ∈ tokenize x.token.spelling := by
    rw [show tokenize x.token.spelling = [x.token] from hlex]
    exact List.mem_singleton_self _
  have hspells := (Token.cut_of_mem_tokenize hmem).spells_kind hk (by simp)
  rw [Token.spelling_of_ne_string (by simp [hk]), ← hname] at hspells
  generalize x.name.toList = cs at hspells
  cases hspells with
  | sign h => exact absurd h (by decide)
  | keyword h => exact absurd (Token.of_mem_keywords h).2.1 (by decide)
  | ident h => exact h

/-- So all its characters are parts of a word. -/
theorem Ident.Filled.isWordPart {x : Ident} (h : x.Filled) :
    ∀ c ∈ x.name.toList, Text.isWordPart c = true := by
  have hword := h.isWord
  cases hcs : x.name.toList with
  | nil => simp
  | cons c cs =>
    rw [hcs, Token.isWord, Bool.and_eq_true_iff, List.all_eq_true] at hword
    exact List.forall_mem_cons.2 ⟨by simp [Text.isWordPart, hword.1], hword.2⟩

/-- A name is a word of a nested list. -/
theorem Ident.Filled.isFormWord {x : Ident} (h : x.Filled) : Form.IsWord x.name := by
  refine ⟨?_, List.all_eq_true.2 fun c hc => Form.isPlain_of_isWordPart (h.isWordPart c hc)⟩
  intro hnil
  have hword := h.isWord
  simp [hnil, Token.isWord] at hword

/-- Parameters are outlined as proper words, with their commas. -/
theorem properAll_paramForms {xs : List Ident} (h : ∀ x ∈ xs, x.Filled) :
    Form.ProperAll (paramForms xs) := by
  fun_induction paramForms xs with
  | case1 => trivial
  | case2 x => exact ⟨(h x List.mem_cons_self).isFormWord, trivial⟩
  | case3 x y xs ih =>
    obtain ⟨hx, hxs⟩ := List.forall_mem_cons.1 h
    obtain ⟨hne, hplain⟩ := hx.isFormWord
    refine ⟨⟨by simp, ?_⟩, ih hxs⟩
    rw [String.toList_append, List.all_append, hplain]
    rfl

/-- So are operators. -/
theorem Form.isWord_mark {k : Token.Kind} (h : Grammar.isBinary k = true ∨ k = .bang ∨ k = .minus) :
    Form.IsWord (mark k).literal := by
  rcases h with h | rfl | rfl
  · cases k <;> first | exact absurd h (by decide) | decide
  · decide
  · decide

/-- So are the values of literals. -/
theorem Form.isWord_ofInt64 {s : String} {n : Int64} (h : Text.int64OfDigits? s = some n) :
    Form.IsWord (Text.ofInt64 n) := by
  obtain ⟨m, hm, -⟩ := Text.int64OfDigits?_ofInt64 h
  rw [hm]
  refine ⟨?_, List.all_eq_true.2 fun c hc => ?_⟩
  · rw [Text.ofNat, String.toList_ofList]
    exact Nat.toDigits_ne_nil
  · exact Form.isPlain_of_isWordPart (by simp [Text.isWordPart, Text.isDigit_of_mem_ofNat hc])

theorem Form.Proper.ofWord {w : String} (h : Form.IsWord w) : (Form.word w).Proper := h

/-- The word for what is missing is a proper form. -/
theorem Form.Proper.absent : (Form.word Incognita.absent).Proper := .ofWord (by decide)

mutual

/-- **The outline of an expression with the right tokens is proper**, so it can be taken apart
    again: its words come from names, numbers and operators, and a string has no quote in it. -/
theorem Expr.proper_form : (e : Expr) → e.Filled → e.form.Proper
  | .missing, _ => .absent
  | .ident _, hf => Ident.Filled.isFormWord hf
  | .int _ none, hf => by
    obtain ⟨-, -, n, hn, -⟩ := hf
    exact absurd hn (by simp)
  | .int _ (some n), hf => by
    obtain ⟨-, -, m, hn, hm⟩ := hf
    obtain rfl := Option.some.inj hn
    exact Form.isWord_ofInt64 hm
  | .bool _ true, _ | .bool _ false, _ => .ofWord (by decide)
  | .str _ _, hf => hf.2
  | .unary _ _ e, hf => by
    obtain ⟨ht, rfl, he⟩ := hf
    refine ⟨?_, e.proper_form he, trivial⟩
    rcases ht with rfl | rfl
    · exact Form.isWord_mark (.inr (.inl rfl))
    · exact Form.isWord_mark (.inr (.inr rfl))
  | .binary t l _ r, hf => by
    obtain ⟨ht, hb, rfl, hl, hr⟩ := hf
    refine ⟨?_, l.proper_form hl, r.proper_form hr, trivial⟩
    rw [ht]
    exact Form.isWord_mark (.inl hb)
  | .choice _ c a .missing, hf =>
    ⟨.ofWord (by decide), c.proper_form hf.2.1,
      ⟨.ofWord (by decide), a.proper_form hf.2.2.1, trivial⟩, trivial⟩
  | .choice _ c a (.mk t ss), hf =>
    ⟨.ofWord (by decide), c.proper_form hf.2.1,
      ⟨.ofWord (by decide), a.proper_form hf.2.2.1, trivial⟩,
      ⟨.ofWord (by decide), (Block.mk t ss).proper_form hf.2.2.2, trivial⟩, trivial⟩
  | .loop _ c b, hf => ⟨.ofWord (by decide), c.proper_form hf.2.1, b.proper_form hf.2.2, trivial⟩
  | .fn _ _ b, hf =>
    ⟨.ofWord (by decide), properAll_paramForms fun x hx => hf.2.1 x (Ident.mem_given.1 hx),
      b.proper_form hf.2.2, trivial⟩
  | .call _ f as, hf => ⟨.ofWord (by decide), f.proper_form hf.2.1, Expr.properAll_forms as hf.2.2⟩

/-- The same for the arguments of a call. -/
theorem Expr.properAll_forms : (es : List Expr) → Expr.FilledAll es →
    Form.ProperAll (Expr.forms es)
  | [], _ => trivial
  | e :: es, hf => ⟨e.proper_form hf.1, Expr.properAll_forms es hf.2⟩

/-- The same for a statement. -/
theorem Stmt.proper_form : (s : Stmt) → s.Filled → s.form.Proper
  | .missing, _ => .absent
  | .bind _ none e, hf => ⟨.ofWord (by decide), .absent, e.proper_form hf.2.2, trivial⟩
  | .bind _ (some x) e, hf =>
    ⟨.ofWord (by decide), (hf.2.1 x rfl).isFormWord, e.proper_form hf.2.2, trivial⟩
  | .ret _ e, hf => ⟨.ofWord (by decide), e.proper_form hf.2, trivial⟩
  | .brk _, _ => ⟨.ofWord (by decide), trivial⟩
  | .expr _ e, hf => e.proper_form hf
  | .block _, hf => hf.elim

/-- The same for the statements of a block. -/
theorem Stmt.properAll_forms : (ss : List Stmt) → Stmt.FilledAll ss →
    Form.ProperAll (Stmt.forms ss)
  | [], _ => trivial
  | s :: ss, hf => ⟨s.proper_form hf.1, Stmt.properAll_forms ss hf.2⟩

/-- The same for a block. -/
theorem Block.proper_form : (b : Block) → b.Filled → b.form.Proper
  | .missing, _ => .absent
  | .mk _ ss, hf => ⟨.ofWord (by decide), Stmt.properAll_forms ss hf.2⟩

end

end Incognita
