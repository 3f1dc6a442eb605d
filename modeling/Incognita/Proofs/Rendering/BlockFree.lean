import Incognita.Proofs.Parts
import Incognita.Proofs.Reading.Filled
import Incognita.Proofs.Rendering.RoundTrip
import Incognita.Tree.Text

namespace Incognita

open Text Token Incognita.Parser

/-!
# Rendering — source text without blocks is read back

The source text of a tree puts every operator and its operands into parentheses, and nothing else.
It is one of the ways in which the tree may be written out, so reading gives the tree back as long
as no block is in it: a condition stands without its parentheses in the text.

* `Expr.blockFree`, `Stmt.blockFree` — trees without choices, loops and functions;
* `Spelled` — a text that is cut into given tokens, whatever delimiter stands behind it;
* `Expr.textTokens`, `Expr.spelled_text` — the tokens of the source text of an expression;
* `Expr.written_text` — the expression may be written out to them;
* `Stmt.parse_text` — so the source text of a statement is read as that statement;
* `text_readBack` — which holds of all statements without blocks in a source without faults.
-/

/-! ### Trees without blocks -/

mutual

/-- Whether no choice, loop or function is in the expression. -/
def Expr.blockFree : Expr → Bool
  | .missing | .ident _ | .int _ _ | .bool _ _ | .str _ _ => true
  | .unary _ _ e => e.blockFree
  | .binary _ l _ r => l.blockFree && r.blockFree
  | .choice _ _ _ _ | .loop _ _ _ | .fn _ _ _ => false
  | .call _ f as => f.blockFree && Expr.blockFreeAll as

/-- Whether no choice, loop or function is in the expressions. -/
def Expr.blockFreeAll : List Expr → Bool
  | [] => true
  | e :: es => e.blockFree && Expr.blockFreeAll es

end

/-- Whether the statement is a binding, a return or an expression without blocks. -/
def Stmt.blockFree : Stmt → Bool
  | .bind _ _ e | .ret _ e | .expr _ e => e.blockFree
  | .missing | .brk _ | .block _ => false

mutual

/-- Without blocks there are no breaks. -/
theorem Expr.strayBreaks_of_blockFree (b : Bool) : (e : Expr) → e.blockFree = true →
    e.strayBreaks b = 0
  | .missing, _ | .ident _, _ | .int _ _, _ | .bool _ _, _ | .str _ _, _ => by
    simp only [Expr.strayBreaks]
  | .unary _ _ e, h => e.strayBreaks_of_blockFree b h
  | .binary _ l _ r, h => by
    obtain ⟨hl, hr⟩ := Bool.and_eq_true_iff.1 h
    rw [Expr.strayBreaks, l.strayBreaks_of_blockFree b hl, r.strayBreaks_of_blockFree b hr]
  | .choice _ _ _ _, h | .loop _ _ _, h | .fn _ _ _, h => absurd h (by simp [Expr.blockFree])
  | .call _ f as, h => by
    obtain ⟨hf, ha⟩ := Bool.and_eq_true_iff.1 h
    rw [Expr.strayBreaks, f.strayBreaks_of_blockFree b hf,
      Expr.strayBreaksAll_of_blockFree b as ha]

/-- The same for the arguments of a call. -/
theorem Expr.strayBreaksAll_of_blockFree (b : Bool) : (es : List Expr) →
    Expr.blockFreeAll es = true → Expr.strayBreaksAll b es = 0
  | [], _ => rfl
  | e :: es, h => by
    obtain ⟨he, hes⟩ := Bool.and_eq_true_iff.1 h
    rw [Expr.strayBreaksAll, e.strayBreaks_of_blockFree b he,
      Expr.strayBreaksAll_of_blockFree b es hes]

end

/-- A statement without blocks has no stray break: a `brk` is not one. -/
theorem Stmt.strayBreaks_of_blockFree (b : Bool) : (s : Stmt) → s.blockFree = true →
    s.strayBreaks b = 0
  | .bind _ _ e, h | .ret _ e, h | .expr _ e, h => e.strayBreaks_of_blockFree b h
  | .missing, h | .brk _, h | .block _, h => absurd h (by simp [Stmt.blockFree])

/-! ### Texts and their tokens -/

/-- The text is cut into the tokens, in front of a delimiter or the end. -/
def Spelled (text : List Char) (ts : List Token) : Prop :=
  ∀ more : List Char, (∀ b ∈ more.head?, Delimits b) → tokenize (text ++ more) = ts ++ tokenize more

namespace Spelled

variable {text more : List Char} {ts us : List Token} {t : Token} {b c : Char} {k : Kind}

/-- At the end of the source nothing follows that a token could run into. -/
theorem tokenize_eq (h : Spelled text ts) : tokenize text = ts := by
  have hend := h [] (by simp)
  rwa [List.append_nil, @tokenize_of_none [] rfl, List.append_nil] at hend

theorem nil : Spelled [] [] := fun _ _ => rfl

/-- A token of its own. -/
theorem token (ht : t.Lexes) (hu : ¬ t.Unclosed) : Spelled t.spelling [t] := by
  have ht' : tokenize t.spelling = [t] := ht
  intro more hmore
  cases more with
  | nil => rw [List.append_nil, ht', tokenize_of_none rfl]; rfl
  | cons b more =>
    rw [tokenize_append_of_delimits (hmore b rfl) (by rw [ht']; simpa using hu), ht']

/-- A token that is no string is spelled by its literal. -/
theorem word (ht : t.Lexes) (hk : t.kind ≠ .string ∧ t.kind ≠ .illegal) :
    Spelled t.literal.toList [t] := by
  rw [← spelling_of_ne_string hk.1]
  exact .token ht (not_unclosed hk.2)

/-- A text in front of one that starts with a delimiter. -/
theorem append (h : Spelled text ts) (hb : Delimits b) (h' : Spelled (b :: more) us) :
    Spelled (text ++ b :: more) (ts ++ us) := by
  intro rest hrest
  rw [List.append_assoc, h (b :: more ++ rest) (by rintro d ⟨⟩; exact hb), h' rest hrest,
    List.append_assoc]

/-- A blank in front is skipped. -/
theorem blank (hb : isBlank b = true) (h : Spelled text ts) : Spelled (b :: text) ts := by
  intro rest hrest
  have hnone : tokenize [] = [] := tokenize_of_none rfl
  have hcut := @tokenize_append [] (text ++ rest) b hb (by simp [hnone])
  rw [hnone] at hcut
  exact hcut.trans (h rest hrest)

/-- A token in front of a space. -/
theorem spaced (h : Spelled text ts) (ht : t.Lexes) (hk : t.kind ≠ .string ∧ t.kind ≠ .illegal) :
    Spelled (t.literal.toList ++ ' ' :: text) (t :: ts) :=
  (word ht hk).append (by decide) (h.blank (by decide))

/-- A token that is always spelled the same, in front of a space. -/
theorem keyword (h : Spelled text ts) (hk : k.text ≠ "") :
    Spelled (k.text.toList ++ ' ' :: text) (mark k :: ts) := by
  have hkind : k ≠ .string ∧ k ≠ .illegal := by constructor <;> rintro rfl <;> exact hk rfl
  have hspaced := h.spaced (lexes_mark hk) hkind
  exact hspaced

/-- A sign that is a token by itself, in front of anything. -/
theorem single (hc : single? c = some k) (hb : isBlank c = false) (h : Spelled text ts) :
    Spelled (c :: text) (mark k :: ts) := by
  intro rest hrest
  obtain ⟨-, htext⟩ := single?_spells hc
  have hmark : mark k = ofChars k [c] := by
    rw [mark, ofChars, ← htext, String.ofList_toList]
  have hscan : next? ([] ++ c :: (text ++ rest)) = some (mark k, text ++ rest) := by
    rw [next?_of_scan (by simp) hb, hmark]
    simp only [scan, hc]
  rw [List.nil_append] at hscan
  rw [List.cons_append, tokenize_of_next hscan, h rest hrest, List.cons_append]

theorem lparen (h : Spelled text ts) : Spelled ('(' :: text) (mark .lparen :: ts) :=
  h.single rfl (by decide)

theorem rparen (h : Spelled text ts) : Spelled (')' :: text) (mark .rparen :: ts) :=
  h.single rfl (by decide)

/-- A statement up to its semicolon. -/
theorem semicolon (h : Spelled text ts) : Spelled (text ++ [';']) (ts ++ [mark .semicolon]) :=
  h.append (by decide) (nil.single rfl (by decide))

/-- A text whose first token starts an expression does not start with an equals sign. -/
theorem head?_ne (h : Spelled text (t :: ts)) (ht : startsExpr t.kind = true) :
    text.head? ≠ some '=' := by
  intro hhead
  obtain ⟨rest, rfl⟩ : ∃ rest, text = '=' :: rest := List.head?_eq_some_iff.1 hhead
  have hnext : next? ([] ++ '=' :: rest) = some (scan '=' rest) :=
    next?_of_scan (by simp) (by decide)
  have htokens := (tokenize_of_next hnext).symm.trans h.tokenize_eq
  have hfirst : (scan '=' rest).1 = t := (List.cons.inj htokens).1
  rw [scan_of_pairing? rfl] at hfirst
  -- It would start with the sign of a binding, or that of a comparison.
  rcases scanPair_cases '=' ⟨'=', .eq, .assign⟩ rest with ⟨hscan, -⟩ | ⟨hscan, -⟩
  all_goals
    rw [← hfirst, hscan] at ht
    exact absurd ht (by simp [ofChars, startsExpr])

/-- A negation sign, which does not pair with what follows. -/
theorem bang (h : Spelled text ts) (hhead : text.head? ≠ some '=') :
    Spelled ('!' :: text) (mark .bang :: ts) := by
  intro rest hrest
  -- In front of `=` the two would be one token, so what follows must not start with it.
  have hnext : (text ++ rest).head? ≠ some '=' := by
    cases text with
    | nil => exact fun hd => (hrest '=' hd).2.1 rfl
    | cons c text => exact hhead
  have hscan : scan '!' (text ++ rest) = (mark .bang, text ++ rest) := by
    rw [scan_of_pairing? rfl]
    cases hrest' : text ++ rest with
    | nil => rfl
    | cons d ds =>
      rw [hrest'] at hnext
      rw [scanPair, if_neg (by simpa using hnext)]
      rfl
  have hfirst : next? ([] ++ '!' :: (text ++ rest)) = some (mark .bang, text ++ rest) := by
    rw [next?_of_scan (by simp) (by decide), hscan]
  rw [List.nil_append] at hfirst
  rw [List.cons_append, tokenize_of_next hfirst, h rest hrest, List.cons_append]

end Spelled

/-! ### The tokens of source text -/

mutual

/-- The tokens of the source text of an expression without blocks. -/
def Expr.textTokens : Expr → List Token
  | .ident x => [x.token]
  | .int t _ | .bool t _ | .str t _ => [t]
  | .unary t _ e => grouped (t :: e.textTokens)
  | .binary t l _ r => grouped (l.textTokens ++ t :: r.textTokens)
  | .call t f as => f.textTokens ++ t :: Expr.argTextTokens as
  | .missing | .choice _ _ _ _ | .loop _ _ _ | .fn _ _ _ => []

/-- The tokens of the source texts of arguments, with the closing parenthesis. -/
def Expr.argTextTokens : List Expr → List Token
  | [] => [mark .rparen]
  | [e] => e.textTokens ++ [mark .rparen]
  | e :: e' :: es => e.textTokens ++ mark .comma :: Expr.argTextTokens (e' :: es)

end

/-- The text of an expression starts like one. -/
theorem Expr.textTokens_head : (e : Expr) → e.Complete → e.Filled → e.blockFree = true →
    ∃ t ts, e.textTokens = t :: ts ∧ startsExpr t.kind = true
  | .missing, hc, _, _ => hc.elim
  | .ident x, _, hf, _ => ⟨x.token, [], rfl, by rw [hf.1]; rfl⟩
  | .int t _, _, hf, _ => ⟨t, [], rfl, by rw [hf.1]; rfl⟩
  | .bool t v, _, hf, _ => ⟨t, [], rfl, by rw [hf.1]; cases v <;> rfl⟩
  | .str t _, _, hf, _ => ⟨t, [], rfl, by rw [hf.1]; rfl⟩
  | .unary _ _ _, _, _, _ | .binary _ _ _ _, _, _, _ => ⟨mark .lparen, _, rfl, rfl⟩
  | .choice _ _ _ _, _, _, hb | .loop _ _ _, _, _, hb | .fn _ _ _, _, _, hb =>
    absurd hb (by simp [Expr.blockFree])
  | .call _ f _, hc, hf, hb => by
    obtain ⟨u, us, hus, hu⟩ := f.textTokens_head hc.1 hf.2.1 (Bool.and_eq_true_iff.1 hb).1
    exact ⟨u, us ++ _, by rw [Expr.textTokens, hus]; rfl, hu⟩

/-- An operator with its operand. -/
theorem spelled_unary {t : Token} {text : List Char} {ts : List Token}
    (ht : t = mark .bang ∨ t = mark .minus) (h : Spelled text ts) (hhead : text.head? ≠ some '=') :
    Spelled ('(' :: (t.literal.toList ++ (text ++ [')']))) (grouped (t :: ts)) := by
  have hclose : Spelled (text ++ [')']) (ts ++ [mark .rparen]) :=
    h.append (by decide) (.rparen .nil)
  apply Spelled.lparen
  rcases ht with rfl | rfl
  · refine hclose.bang ?_
    cases text with
    | nil => decide
    | cons c text => exact hhead
  · exact hclose.single rfl (by decide)

/-- An operator between its operands. -/
theorem spelled_binary {t : Token} {ltext rtext : List Char} {ls rs : List Token}
    (ht : t = mark t.kind) (hb : Grammar.isBinary t.kind = true) (hl : Spelled ltext ls)
    (hr : Spelled rtext rs) :
    Spelled ('(' :: (ltext ++ ' ' :: (t.literal.toList ++ ' ' :: (rtext ++ [')']))))
      (grouped (ls ++ t :: rs)) := by
  have hlex : t.Lexes := by
    rw [ht]
    exact lexes_mark (text_of_isBinary hb)
  have hkind : t.kind ≠ .string ∧ t.kind ≠ .illegal := by
    constructor <;> intro hk <;> simp [hk, Grammar.isBinary] at hb
  have hclose : Spelled (rtext ++ [')']) (rs ++ [mark .rparen]) :=
    hr.append (by decide) (.rparen .nil)
  have hright := (hclose.spaced hlex hkind).blank (by decide : isBlank ' ' = true)
  have hboth := hl.append (by decide) hright
  have htokens : grouped (ls ++ t :: rs) = mark .lparen :: (ls ++ t :: (rs ++ [mark .rparen])) := by
    simp [grouped]
  rw [htokens]
  exact hboth.lparen

/-- There are as many source texts as arguments. -/
theorem Expr.texts_ne_nil {e : Expr} {es : List Expr} {texts : List String}
    (h : Expr.texts (e :: es) = some texts) : texts ≠ [] := by
  rintro rfl
  simp [Expr.texts, Option.bind_eq_some_iff] at h

mutual

/-- **An expression has a source text, which is cut into its tokens.**  Tokens that could run into
    each other are kept apart by the parentheses and blanks of the text. -/
theorem Expr.spelled_text : (e : Expr) → e.Complete → e.Filled → e.blockFree = true →
    ∃ text, e.text = some text ∧ Spelled text.toList e.textTokens
  | .missing, hc, _, _ => hc.elim
  | .ident x, _, hf, _ => by
    obtain ⟨hk, hlex, hname⟩ := hf
    refine ⟨x.name, by rw [Expr.text], ?_⟩
    rw [hname]
    exact .word hlex (by simp [hk])
  | .int t _, _, hf, _ => ⟨t.literal, by rw [Expr.text], .word hf.2.1 (by simp [hf.1])⟩
  | .bool t v, _, hf, _ => by
    refine ⟨t.literal, by rw [Expr.text], .word (lexes_keyword hf.2) ?_⟩
    rw [hf.1]
    cases v <;> simp
  | .str t v, _, hf, _ => by
    obtain ⟨rfl, hq⟩ := hf
    have htext : ("\"" ++ v ++ "\"").toList = Token.spelling ⟨.string, v⟩ := by
      simp [spelling]
    refine ⟨_, by rw [Expr.text], ?_⟩
    rw [htext]
    exact .token (lexes_string hq) (not_unclosed (by simp))
  -- The texts of operators are wrapped in parentheses, so they never run into each other.
  | .unary t op e, hc, hf, hb => by
    obtain ⟨ht, rfl, hfe⟩ := hf
    obtain ⟨text, hsome, he⟩ := e.spelled_text hc hfe hb
    obtain ⟨u, us, hus, hu⟩ := e.textTokens_head hc hfe hb
    have hhead : text.toList.head? ≠ some '=' := (hus ▸ he).head?_ne hu
    have htext : ("(" ++ t.literal ++ text ++ ")").toList =
        '(' :: (t.literal.toList ++ (text.toList ++ [')'])) := by
      simp
    refine ⟨"(" ++ t.literal ++ text ++ ")", by simp [Expr.text, hsome], ?_⟩
    rw [htext]
    exact spelled_unary ht he hhead
  | .binary t l op r, hc, hf, hb => by
    obtain ⟨ht, hbin, rfl, hfl, hfr⟩ := hf
    obtain ⟨hbl, hbr⟩ := Bool.and_eq_true_iff.1 hb
    obtain ⟨ltext, hlsome, hl⟩ := l.spelled_text hc.1 hfl hbl
    obtain ⟨rtext, hrsome, hr⟩ := r.spelled_text hc.2 hfr hbr
    have htext : ("(" ++ ltext ++ " " ++ t.literal ++ " " ++ rtext ++ ")").toList =
        '(' :: (ltext.toList ++ ' ' :: (t.literal.toList ++ ' ' :: (rtext.toList ++ [')']))) := by
      simp
    refine ⟨"(" ++ ltext ++ " " ++ t.literal ++ " " ++ rtext ++ ")",
      by simp [Expr.text, hlsome, hrsome], ?_⟩
    rw [htext]
    exact spelled_binary ht hbin hl hr
  | .choice _ _ _ _, _, _, hb | .loop _ _ _, _, _, hb | .fn _ _ _, _, _, hb =>
    absurd hb (by simp [Expr.blockFree])
  | .call t f as, hc, hf, hb => by
    obtain ⟨rfl, hff, hfa⟩ := hf
    obtain ⟨hbf, hba⟩ := Bool.and_eq_true_iff.1 hb
    obtain ⟨text, hsome, hcallee⟩ := f.spelled_text hc.1 hff hbf
    obtain ⟨texts, hsomes, hargs⟩ := Expr.spelled_args as hc.2 hfa hba
    have htext : (text ++ "(" ++ ", ".intercalate texts ++ ")").toList =
        text.toList ++ '(' :: ((", ".intercalate texts).toList ++ [')']) := by
      simp
    refine ⟨text ++ "(" ++ ", ".intercalate texts ++ ")", by simp [Expr.text, hsome, hsomes], ?_⟩
    rw [htext]
    exact hcallee.append (by decide) hargs.lparen

/-- Arguments have source texts, which are cut into their tokens with commas in between and the
    closing parenthesis behind them. -/
theorem Expr.spelled_args : (es : List Expr) → Expr.CompleteAll es → Expr.FilledAll es →
    Expr.blockFreeAll es = true →
    ∃ texts, Expr.texts es = some texts ∧
      Spelled ((", ".intercalate texts).toList ++ [')']) (Expr.argTextTokens es)
  | [], _, _, _ => by
    refine ⟨[], by rw [Expr.texts], ?_⟩
    rw [Expr.argTextTokens]
    simpa using Spelled.nil.rparen
  | [e], hc, hf, hb => by
    obtain ⟨text, hsome, he⟩ := e.spelled_text hc.1 hf.1 (Bool.and_eq_true_iff.1 hb).1
    refine ⟨[text], by simp [Expr.texts, hsome], ?_⟩
    rw [Expr.argTextTokens]
    simpa using he.append (by decide) (.rparen .nil)
  -- The comma belongs to the arguments that follow, and a blank stands after it.
  | e :: e' :: es, hc, hf, hb => by
    obtain ⟨hbe, hbes⟩ := Bool.and_eq_true_iff.1 hb
    obtain ⟨text, hsome, he⟩ := e.spelled_text hc.1 hf.1 hbe
    obtain ⟨texts, hsomes, hes⟩ := Expr.spelled_args (e' :: es) hc.2 hf.2 hbes
    have hcomma := (hes.blank (by decide : isBlank ' ' = true)).single
      (by decide : single? ',' = some .comma) (by decide)
    have htext : (", ".intercalate (text :: texts)).toList ++ [')'] =
        text.toList ++ ',' :: ' ' :: ((", ".intercalate texts).toList ++ [')']) := by
      rw [String.intercalate_cons_of_ne_nil (Expr.texts_ne_nil hsomes)]
      simp
    refine ⟨text :: texts, by rw [Expr.texts, hsome, hsomes]; rfl, ?_⟩
    rw [htext]
    exact he.append (by decide) hcomma

end

/-! ### The text is one of the ways to write the tree -/

mutual

/-- **An expression may be written out to the tokens of its source text**, as an operand of anything
    and by itself.  The text puts every operator into parentheses, so an operand fits wherever it
    stands. -/
theorem Expr.written_text : (e : Expr) → e.Complete → e.Filled → e.blockFree = true →
    (∀ p, p ≤ Power.ofKind .lparen → Written true (.operand p e) e.textTokens) ∧
      Written true (.whole e) e.textTokens
  | .missing, hc, _, _ => hc.elim
  | .ident _, _, _, _ => ⟨fun _ hp => .tight hp .ident, .whole .ident⟩
  | .int _ _, _, _, _ => ⟨fun _ hp => .tight hp .int, .whole .int⟩
  | .bool _ _, _, _, _ => ⟨fun _ hp => .tight hp .bool, .whole .bool⟩
  | .str _ _, _, _, _ => ⟨fun _ hp => .tight hp .str, .whole .str⟩
  | .unary t op e, hc, hf, hb => by
    have he := (e.written_text hc hf.2.2 hb).1 Power.unary (by decide)
    have hwhole : Written true (.whole (.unary t op e)) (t :: e.textTokens) := .whole (.unary he)
    exact ⟨fun _ _ => .operand hwhole, .group hwhole⟩
  | .binary t l op r, hc, hf, hb => by
    obtain ⟨-, hbin, -, hfl, hfr⟩ := hf
    obtain ⟨hbl, hbr⟩ := Bool.and_eq_true_iff.1 hb
    -- No operator between operands binds as tightly as one in front of an operand.
    obtain ⟨-, -, -, hlt⟩ := isBinary_bounds hbin
    have hpower : Power.ofKind t.kind + 1 ≤ Power.ofKind .lparen :=
      Nat.le_trans hlt (by decide)
    have hl := (l.written_text hc.1 hfl hbl).1 (Power.ofKind t.kind) (Nat.le_of_succ_le hpower)
    have hr := (r.written_text hc.2 hfr hbr).1 (Power.ofKind t.kind + 1) hpower
    have hwhole : Written true (.whole (.binary t l op r)) (l.textTokens ++ t :: r.textTokens) :=
      .whole (.binary hl hr)
    exact ⟨fun _ _ => .operand hwhole, .group hwhole⟩
  | .choice _ _ _ _, _, _, hb | .loop _ _ _, _, _, hb | .fn _ _ _, _, _, hb =>
    absurd hb (by simp [Expr.blockFree])
  | .call t f as, hc, hf, hb => by
    obtain ⟨hbf, hba⟩ := Bool.and_eq_true_iff.1 hb
    have hcallee := (f.written_text hc.1 hf.2.1 hbf).1 (Power.ofKind .lparen) (Nat.le_refl _)
    have hcall : Written true (.bare (.call t f as)) (Expr.call t f as).textTokens :=
      .call hcallee (Expr.written_argTexts as hc.2 hf.2.2 hba)
    exact ⟨fun _ hp => .tight hp hcall, .whole hcall⟩

/-- The tokens of the source texts of arguments are a way to write them. -/
theorem Expr.written_argTexts : (es : List Expr) → Expr.CompleteAll es → Expr.FilledAll es →
    Expr.blockFreeAll es = true → Written true (.args es) (Expr.argTextTokens es)
  | [], _, _, _ => .noArgs
  | [e], hc, hf, hb => .lastArg (e.written_text hc.1 hf.1 (Bool.and_eq_true_iff.1 hb).1).2
  | e :: e' :: es, hc, hf, hb => by
    obtain ⟨hbe, hbes⟩ := Bool.and_eq_true_iff.1 hb
    exact .nextArg (e.written_text hc.1 hf.1 hbe).2
      (Expr.written_argTexts (e' :: es) hc.2 hf.2 hbes)

end

/-! ### Statements are read back -/

/-- A text that is cut into the tokens of one statement without blocks is read as it. -/
theorem Spelled.parse {text : String} {ts : List Token} {s : Stmt} {n : Nat}
    (h : Spelled text.toList ts) (hread : ReadsAll ts [s] n) (hb : s.blockFree = true) :
    Incognita.parse text = ⟨⟨[s]⟩, []⟩ := by
  have hbreaks : Stmt.strayBreaksAll false [s] = 0 := by
    simp [Stmt.strayBreaksAll, s.strayBreaks_of_blockFree false hb]
  have hn : n = 0 := hread.strayBreaks.symm.trans hbreaks
  rw [Incognita.parse, h.tokenize_eq, parseTokens_eq_of_readsAll hread, hn]
  rfl

/-- A binding without blocks is read back. -/
theorem parse_text_bind {x : Ident} {e : Expr} (hx : x.Filled) (hc : e.Complete) (hf : e.Filled)
    (hb : e.blockFree = true) :
    ∃ text, (Stmt.bind (mark .kwLet) (some x) e).text = some text ∧
      parse text = ⟨⟨[.bind (mark .kwLet) (some x) e]⟩, []⟩ := by
  obtain ⟨text, hsome, hvalue⟩ := e.spelled_text hc hf hb
  have hassign : Spelled ('=' :: ' ' :: (text.toList ++ [';'])) _ :=
    hvalue.semicolon.keyword (by decide : Kind.text .assign ≠ "")
  have hname := hassign.spaced hx.2.1 (by simp [hx.1])
  have hspelled := hname.keyword (by decide : Kind.text .kwLet ≠ "")
  have hwritten : Written true (.stmts [.bind (mark .kwLet) (some x) e])
      (mark .kwLet :: x.token :: mark .assign :: (e.textTokens ++ [mark .semicolon]) ++ []) :=
    .cons (.bind (e.written_text hc hf hb).2) .nil
  -- What is written is read back, and what is spelled is cut into what is written.
  obtain ⟨⟨n, hread⟩, -⟩ := hwritten.readBack
    ⟨⟨rfl, by rintro y ⟨⟩; exact hx, hf⟩, trivial⟩
  rw [List.append_nil] at hread
  have htext : (Kind.text .kwLet ++ " " ++ x.name ++ " = " ++ text ++ ";").toList =
      (Kind.text .kwLet).toList ++
        ' ' :: (x.token.literal.toList ++ ' ' :: '=' :: ' ' :: (text.toList ++ [';'])) := by
    simp [hx.2.2]
  exact ⟨_, by simp [Stmt.text, hsome, mark], Spelled.parse (htext ▸ hspelled) hread hb⟩

/-- A return with or without a value is read back. -/
theorem parse_text_ret {e : Expr} (hc : e = .missing ∨ e.Complete) (hf : e.Filled)
    (hb : e.blockFree = true) :
    ∃ text, (Stmt.ret (mark .kwReturn) e).text = some text ∧
      parse text = ⟨⟨[.ret (mark .kwReturn) e]⟩, []⟩ := by
  -- A bare return has the empty text in the place of its value.
  obtain ⟨text, hsome, hvalue⟩ : ∃ text, e.text = some text ∧
      Spelled text.toList e.textTokens := by
    rcases hc with rfl | hc
    · exact ⟨"", rfl, .nil⟩
    · exact e.spelled_text hc hf hb
  have hspelled := hvalue.semicolon.keyword (by decide : Kind.text .kwReturn ≠ "")
  have hwritten : Written true (.stmt (.ret (mark .kwReturn) e))
      (mark .kwReturn :: (e.textTokens ++ [mark .semicolon])) := by
    rcases hc with rfl | hc
    · exact .bareRet
    · exact .ret (e.written_text hc hf hb).2
  obtain ⟨⟨n, hread⟩, -⟩ := (hwritten.cons .nil).readBack ⟨⟨rfl, hf⟩, trivial⟩
  rw [List.append_nil] at hread
  have htext : (Kind.text .kwReturn ++ " " ++ text ++ ";").toList =
      (Kind.text .kwReturn).toList ++ ' ' :: (text.toList ++ [';']) := by
    simp
  exact ⟨_, by simp [Stmt.text, hsome, mark], Spelled.parse (htext ▸ hspelled) hread hb⟩

/-- An expression without blocks is read back.  Its statement starts with the first token of the
    text, which may be a parenthesis. -/
theorem parse_text_expr {e : Expr} (hc : e.Complete) (hf : e.Filled) (hb : e.blockFree = true) :
    ∃ text t, e.text = some text ∧ parse text = ⟨⟨[.expr t e]⟩, []⟩ := by
  obtain ⟨t, ts, hts, -⟩ := e.textTokens_head hc hf hb
  obtain ⟨text, hsome, hspelled⟩ := e.spelled_text hc hf hb
  have hwritten := (e.written_text hc hf hb).2
  rw [hts] at hwritten hspelled
  obtain ⟨n, he⟩ := hwritten.readBack hf 0 [] ⟨by simp [Stops], by simp [peek]⟩
  rw [List.append_nil] at he
  have hread : ReadsAll (t :: ts) [.expr t e] (n + 0) := .cons (.exprStmt he) .nil
  exact ⟨text, t, hsome, hspelled.parse hread hb⟩

/-- **A statement without blocks has a source text, which is read as that statement**, but for the
    token of an expression statement, so the text of what is read is the text again. -/
theorem Stmt.parse_text {s : Stmt} (hc : s.Complete) (hf : s.Filled) (hb : s.blockFree = true) :
    ∃ text s', s.text = some text ∧ parse text = ⟨⟨[s']⟩, []⟩ ∧
      s'.unstamped = s.unstamped ∧ s'.text = some text := by
  cases s with
  | missing | brk | block => exact absurd hb (by simp [Stmt.blockFree])
  | bind t x e =>
    obtain ⟨rfl, hx, he⟩ := hf
    obtain ⟨x, rfl⟩ := Option.ne_none_iff_exists'.1 hc.1
    obtain ⟨text, hsome, hparse⟩ := parse_text_bind (hx x rfl) hc.2 he hb
    exact ⟨text, _, hsome, hparse, rfl, hsome⟩
  | ret t e =>
    obtain ⟨rfl, he⟩ := hf
    obtain ⟨text, hsome, hparse⟩ := parse_text_ret hc he hb
    exact ⟨text, _, hsome, hparse, rfl, hsome⟩
  | expr t e =>
    obtain ⟨text, t', hsome, hparse⟩ := parse_text_expr hc hf hb
    exact ⟨text, .expr t' e, hsome, hparse, rfl, hsome⟩

/-! ### All statements of a source -/

/-- The tree, if it is a statement, satisfies `P`. -/
def Node.OfStmt (P : Stmt → Prop) : Node → Prop
  | .stmt s => P s
  | .program _ | .expr _ => True

section

variable {P : Stmt → Prop}

mutual

/-- The statements in an expression, those of function bodies included, are complete and filled as
    well. -/
theorem Expr.every_ofStmt (h : ∀ s : Stmt, s.Complete → s.Filled → P s) : (e : Expr) →
    e.Complete → e.Filled → e.Every (Node.OfStmt P)
  | .missing, _, _ | .ident _, _, _ | .int _ _, _, _ | .bool _ _, _, _ | .str _ _, _, _ => trivial
  | .unary _ _ e, hc, hf => ⟨trivial, e.every_ofStmt h hc hf.2.2⟩
  | .binary _ l _ r, hc, hf =>
    ⟨trivial, l.every_ofStmt h hc.1 hf.2.2.2.1, r.every_ofStmt h hc.2 hf.2.2.2.2⟩
  | .choice _ c a .missing, hc, hf =>
    ⟨trivial, c.every_ofStmt h hc.1 hf.2.1, a.every_ofStmt h hc.2.1 hf.2.2.1, trivial⟩
  | .choice _ c a (.mk t ss), hc, hf =>
    ⟨trivial, c.every_ofStmt h hc.1 hf.2.1, a.every_ofStmt h hc.2.1 hf.2.2.1,
      (Block.mk t ss).every_ofStmt h (hc.2.2.resolve_left (by simp)) hf.2.2.2⟩
  | .loop _ c b, hc, hf =>
    ⟨trivial, c.every_ofStmt h hc.1 hf.2.1, b.every_ofStmt h hc.2 hf.2.2⟩
  | .fn _ _ b, hc, hf => ⟨trivial, b.every_ofStmt h hc.2 hf.2.2⟩
  | .call _ f as, hc, hf =>
    ⟨trivial, f.every_ofStmt h hc.1 hf.2.1, Expr.everyAll_ofStmt h as hc.2 hf.2.2⟩

/-- The same for the arguments of a call. -/
theorem Expr.everyAll_ofStmt (h : ∀ s : Stmt, s.Complete → s.Filled → P s) : (es : List Expr) →
    Expr.CompleteAll es → Expr.FilledAll es → Expr.EveryAll (Node.OfStmt P) es
  | [], _, _ => trivial
  | e :: es, hc, hf => ⟨e.every_ofStmt h hc.1 hf.1, Expr.everyAll_ofStmt h es hc.2 hf.2⟩

/-- The same for a statement, which is one of its own statements. -/
theorem Stmt.every_ofStmt (h : ∀ s : Stmt, s.Complete → s.Filled → P s) : (s : Stmt) →
    s.Complete → s.Filled → s.Every (Node.OfStmt P)
  | .missing, hc, _ => hc.elim
  | .bind _ _ e, hc, hf => ⟨h _ hc hf, e.every_ofStmt h hc.2 hf.2.2⟩
  | .ret _ e, hc, hf => by
    refine ⟨h _ hc hf, ?_⟩
    rcases hc with rfl | hc
    · trivial
    · exact e.every_ofStmt h hc hf.2
  | .brk _, hc, hf => h _ hc hf
  | .expr _ e, hc, hf => ⟨h _ hc hf, e.every_ofStmt h hc hf⟩
  | .block _, _, hf => hf.elim

/-- The same for statements one after the other. -/
theorem Stmt.everyAll_ofStmt (h : ∀ s : Stmt, s.Complete → s.Filled → P s) : (ss : List Stmt) →
    Stmt.CompleteAll ss → Stmt.FilledAll ss → Stmt.EveryAll (Node.OfStmt P) ss
  | [], _, _ => trivial
  | s :: ss, hc, hf => ⟨s.every_ofStmt h hc.1 hf.1, Stmt.everyAll_ofStmt h ss hc.2 hf.2⟩

/-- The same for the statements of a block. -/
theorem Block.every_ofStmt (h : ∀ s : Stmt, s.Complete → s.Filled → P s) : (b : Block) →
    b.Complete → b.Filled → b.Every (Node.OfStmt P)
  | .missing, hc, _ => hc.elim
  | .mk _ ss, hc, hf => Stmt.everyAll_ofStmt h ss hc hf.2

end

/-- What holds of all complete statements with the right tokens holds of every statement in a
    well-formed tree. -/
theorem Program.WellFormed.every_ofStmt {p : Program} (hp : p.WellFormed)
    (h : ∀ s : Stmt, s.Complete → s.Filled → P s) : p.Every (Node.OfStmt P) :=
  Stmt.everyAll_ofStmt h p.stmts hp.complete hp.filled

end

/-- **Source text without blocks is read back.**  In a source without faults, every statement
    without blocks, at any depth, has a source text, which is read without faults as that one
    statement, but for the token of an expression statement, and the text of what is read is the
    same. -/
theorem text_readBack {source : String} (h : (parse source).diagnostics = []) :
    (parse source).program.Every <| Node.OfStmt fun s => s.blockFree = true →
      ∃ text s', s.text = some text ∧ parse text = ⟨⟨[s']⟩, []⟩ ∧
        s'.unstamped = s.unstamped ∧ s'.text = some text := by
  have hp := wellFormed_of_parse h
  exact hp.every_ofStmt fun s hc hf hb => Stmt.parse_text hc hf hb

/-- A binding whose value has operators, calls and a string in it. -/
theorem text_readBack_product :
    ∃ s, (parse "incognita x = -f(1)(\"a\") * (b != !c)").program.stmts = [s] ∧
      s.text = some "incognita x = ((-f(1)(\"a\")) * (b != (!c)));" ∧
      ∃ s', parse "incognita x = ((-f(1)(\"a\")) * (b != (!c)));" = ⟨⟨[s']⟩, []⟩ ∧
        s'.unstamped = s.unstamped ∧
        s'.text = some "incognita x = ((-f(1)(\"a\")) * (b != (!c)));" := by
  have hevery := @text_readBack "incognita x = -f(1)(\"a\") * (b != !c)" (by decide +kernel)
  have htexts : (parse "incognita x = -f(1)(\"a\") * (b != !c)").program.stmts.map Stmt.text =
      [some "incognita x = ((-f(1)(\"a\")) * (b != (!c)));"] := by decide +kernel
  have hfree : (parse "incognita x = -f(1)(\"a\") * (b != !c)").program.stmts.all Stmt.blockFree =
      true := by decide +kernel
  obtain ⟨s, hs, htext⟩ := List.map_eq_singleton_iff.1 htexts
  rw [Program.Every, hs] at hevery
  rw [hs, List.all_cons, Bool.and_eq_true_iff] at hfree
  obtain ⟨text, s', hsome, hread⟩ : ∃ text s', s.text = some text ∧
      parse text = ⟨⟨[s']⟩, []⟩ ∧ s'.unstamped = s.unstamped ∧ s'.text = some text := by
    cases s with
    | missing | brk => exact hevery.1 hfree.1
    | bind | ret | expr | block => exact hevery.1.1 hfree.1
  obtain rfl := Option.some.inj (hsome.symm.trans htext)
  exact ⟨s, hs, htext, s', hread⟩

end Incognita
