import Incognita.Proofs.Reading.Exact
import Incognita.Proofs.Rendering.Stamps

namespace Incognita

open Incognita.Parser Token

/-!
# Rendering — reading undoes writing

Whatever a well-formed tree is written out to, reading gives the tree back.

* `Clear` — what stands behind an expression does not reach into it: the next token binds no
  tighter than the expression, and starts no alternative;
* `Phrase.ReadBack` — how a phrase is read in front of what is clear of it.  An expression that
  is still open to operators is read together with them, with the power that is pending;
* `Written.readBack` — what a phrase is written out to is read back;
* `parse_written` — hence reading the text of a tree gives the tree.
-/

/-! ### What stands behind an expression -/

/-- The tokens do not reach into an expression that binds with the power. -/
structure Clear (power : Power) (rest : List Token) : Prop where
  /-- What follows does not go on with an operator that binds as tightly. -/
  stops : Stops power rest
  /-- Nor does it go on with an alternative. -/
  noElse : peek rest ≠ .kwElse

namespace Clear

variable {p q : Power} {rest : List Token} {t : Token}

/-- What an expression of some power is not reached by, one that binds tighter is not either. -/
theorem mono (h : Clear p rest) (hpq : p ≤ q) : Clear q rest :=
  ⟨fun t ht => Nat.le_trans (h.stops t ht) hpq, h.noElse⟩

/-- A token that binds no tighter than the power and is no `tonces` ends an expression. -/
theorem cons (hp : Power.ofKind t.kind ≤ p) (he : t.kind ≠ .kwElse) : Clear p (t :: rest) :=
  ⟨by rintro u ⟨⟩; exact hp, he⟩

theorem semicolon : Clear Power.lowest (mark .semicolon :: rest) := .cons (by decide) (by simp)

theorem rparen : Clear Power.lowest (mark .rparen :: rest) := .cons (by decide) (by simp)

end Clear

/-! ### Reading a phrase back -/

/-- How a phrase is read. -/
def Phrase.ReadBack : Phrase → List Token → Prop
  | .bare e, ts => ∀ {loops q rest e' rest' n}, Clear e.power rest → q ≤ Power.unary →
      (q < e.power ∨ e.power = Power.unary) →
      Reads (.operators loops q e rest) e' rest' n →
      ∃ m, Reads (.expr loops q (ts ++ rest)) e' rest' m
  | .operand p e, ts => ∀ {loops q rest e' rest' n}, Clear p rest → q ≤ Power.unary →
      (q < p ∨ p = Power.unary) → Reads (.operators loops q e rest) e' rest' n →
      ∃ m, Reads (.expr loops q (ts ++ rest)) e' rest' m
  | .whole e, ts => ∀ loops rest, Clear Power.lowest rest →
      ∃ m, Reads (.expr loops Power.lowest (ts ++ rest)) e rest m
  | .args es, ts => ∀ loops rest, ∃ m, Reads (.args loops (ts ++ rest)) (some es) rest m
  | .block b, ts => ∀ loops rest, ∃ m, Reads (.block loops (ts ++ rest)) b rest m
  | .stmt s, ts => ∃ t ts', ts = t :: ts' ∧
      ∀ loops rest, ∃ m, Reads (.stmt loops t (ts' ++ rest)) (some s) rest m
  | .stmts ss, ts => (∃ m, ReadsAll ts ss m) ∧
      ∀ loops rest, ∃ m, Reads (.body loops (ts ++ mark .rbrace :: rest)) ss rest m

section

variable {loops n : Nat} {q : Power} {t : Token} {e e' : Expr} {ts rest rest' : List Token}

/-- An expression that is one token. -/
theorem readBack_leaf (h : leaf? t = some e) (hw : Reads (.operators loops q e rest) e' rest' n) :
    ∃ m, Reads (.expr loops q ([t] ++ rest)) e' rest' m :=
  ⟨_, .expr (Reads.startsExpr_of_leaf h) (.leaf h) hw⟩

/-- An expression in parentheses. -/
theorem readBack_group (h : (Phrase.whole e).ReadBack ts)
    (hw : Reads (.operators loops q e rest) e' rest' n) :
    ∃ m, Reads (.expr loops q (grouped ts ++ rest)) e' rest' m := by
  obtain ⟨m, he⟩ := h loops (mark .rparen :: rest) .rparen
  have hgroup : Reads (.operand loops (mark .lparen) (ts ++ mark .rparen :: rest)) e rest m :=
    .group rfl rfl he
  rw [grouped, List.cons_append, List.append_assoc]
  exact ⟨_, .expr rfl hgroup hw⟩

/-- A condition. -/
theorem readBack_condition (h : (Phrase.whole e).ReadBack ts) (loops : Nat) (rest : List Token) :
    ∃ m, Reads (.condition loops (grouped ts ++ rest)) (some e) rest m := by
  obtain ⟨m, he⟩ := h loops (mark .rparen :: rest) .rparen
  rw [grouped, List.cons_append, List.append_assoc]
  exact ⟨m, .condition rfl rfl he⟩

/-- A filled name is the one that reading its token makes. -/
theorem Ident.Filled.ofToken_token {x : Ident} (h : x.Filled) : Ident.ofToken x.token = x := by
  obtain ⟨t, name⟩ := x
  obtain rfl : name = t.literal := h.2.2
  rfl

/-- Parameters. -/
theorem params_paramTokens {xs : List Ident} (h : ∀ x ∈ xs, x.Filled) :
    params (paramTokens xs ++ mark .rparen :: rest) = ⟨some xs, rest, []⟩ := by
  fun_induction paramTokens xs with
  | case1 => rfl
  | case2 x =>
    have hx := h x List.mem_cons_self
    rw [List.singleton_append, params_of_ident hx.1, moreParams_of_rparen rfl, hx.ofToken_token]
    rfl
  | case3 x y xs ih =>
    obtain ⟨hx, hxs⟩ := List.forall_mem_cons.1 h
    have hy := hxs y List.mem_cons_self
    -- The tokens behind the comma start with the next name.
    have hmore : ∃ us, paramTokens (y :: xs) = y.token :: us := by cases xs <;> exact ⟨_, rfl⟩
    obtain ⟨us, hus⟩ := hmore
    have ih' := ih hxs
    rw [hus] at ih' ⊢
    simp only [List.cons_append] at ih' ⊢
    rw [params_of_ident hx.1, moreParams_of_comma rfl hy.1, ih', hx.ofToken_token]
    rfl

/-- The operators between operands bind tighter than nothing and looser than those in front of
    one. -/
theorem isBinary_bounds {k : Kind} (h : Grammar.isBinary k = true) :
    k ≠ .lparen ∧ k ≠ .kwElse ∧ Power.lowest < Power.ofKind k ∧ Power.ofKind k < Power.unary := by
  cases k <;> first | exact absurd h (by decide) | decide

/-- Every expression binds, however loosely. -/
theorem Expr.lowest_lt_power {e : Expr} (h : e.Filled) : Power.lowest < e.power := by
  cases e with
  | binary => exact (isBinary_bounds h.2.1).2.2.1
  | unary => exact (by decide : Power.lowest < Power.unary)
  | _ => exact (by decide : Power.lowest < Power.ofKind .lparen)

/-- An operator between two operands: the left one is read with the pending power, and the right
    one with the power of the operator. -/
theorem readBack_binary {l r : Expr} {op : String} {ls rs : List Token}
    (ihl : (Phrase.operand (Power.ofKind t.kind) l).ReadBack ls)
    (ihr : (Phrase.operand (Power.ofKind t.kind + 1) r).ReadBack rs)
    (hb : Grammar.isBinary t.kind = true) (hop : op = t.literal) :
    (Phrase.bare (.binary t l op r)).ReadBack (ls ++ t :: rs) := by
  intro loops q rest e' rest' n hc hq hpow hw
  obtain ⟨hnl, hne, -, hlt⟩ := isBinary_bounds hb
  have hqp : q < Power.ofKind t.kind := by
    rcases hpow with h | h
    · exact h
    · exact absurd h (Nat.ne_of_lt hlt)
  subst hop
  -- The right operand ends where the whole does, since what follows binds no tighter.
  obtain ⟨i, hr⟩ := ihr (hc.mono (Nat.le_succ _)) (Nat.le_of_lt hlt) (.inl (Nat.lt_succ_self _))
    (.stop hc.stops)
  -- The left one is followed by the operator, which binds tighter than what is pending.
  obtain ⟨m, hl⟩ := ihl (.cons (Nat.le_refl _) hne) hq (.inl hqp) (.binary hqp hnl hr hw)
  rw [List.append_assoc]
  exact ⟨m, hl⟩

/-- A call is read after its callee: the parenthesis is an operator of the highest power. -/
theorem readBack_call {f : Expr} {as : List Expr} {fs : List Token}
    (ihf : (Phrase.operand (Power.ofKind .lparen) f).ReadBack fs)
    (iha : (Phrase.args as).ReadBack ts) :
    (Phrase.bare (.call (mark .lparen) f as)).ReadBack (fs ++ mark .lparen :: ts) := by
  intro loops q rest e' rest' n _ hq _ hw
  -- Nothing that can be pending binds as tightly as a call.
  have hqp : q < Power.ofKind .lparen := Nat.lt_of_le_of_lt hq (by decide)
  obtain ⟨i, ha⟩ := iha loops rest
  obtain ⟨m, hf⟩ := ihf (.cons (Nat.le_refl _) (by simp)) hq (.inl hqp) (.call hqp rfl ha hw)
  rw [List.append_assoc]
  exact ⟨m, hf⟩

/-- Arguments behind a comma. -/
theorem moreArgs_of_args {es : List Expr} (ht : t.kind = .comma)
    (h : Reads (.args loops ts) (some (e :: es)) rest n) :
    ∃ m, Reads (.moreArgs loops (t :: ts)) (some (e :: es)) rest m := by
  cases h with
  | someArgs he hes => exact ⟨_, .nextArg ht he hes⟩

/-- An operand that needs no parentheses binds tighter than what is pending. -/
theorem readBack_tight {p : Power} (hp : p ≤ e.power) (ih : (Phrase.bare e).ReadBack ts) :
    (Phrase.operand p e).ReadBack ts := by
  intro loops q rest e' rest' n hc hq hpow hw
  refine ih (hc.mono hp) hq ?_ hw
  rcases hpow with h | rfl
  · exact .inl (Nat.lt_of_lt_of_le h hp)
  -- Behind an operator in front, what is pending may bind as tightly as the operand.
  · rcases Nat.eq_or_lt_of_le hp with heq | hlt
    · exact .inr heq.symm
    · exact .inl (Nat.lt_of_le_of_lt hq hlt)

end

/-- **What a phrase is written out to is read back.**  By induction on how it is written.  What
    follows must not go on with the phrase, which `Clear` says of an operand and the closing token
    of everything else. -/
theorem Written.readBack {X : Phrase} {ts : List Token} (h : Written true X ts) (hf : X.Filled) :
    X.ReadBack ts := by
  induction h with
  | @ident x =>
    intro loops q rest e' rest' n _ _ _ hw
    have hx : Ident.ofToken x.token = x := Ident.Filled.ofToken_token hf
    exact readBack_leaf (by simp [leaf?, hf.1, hx]) hw
  | @int t v =>
    intro loops q rest e' rest' n _ _ _ hw
    obtain ⟨hk, -, i, rfl, hi⟩ := hf
    exact readBack_leaf (by simp [leaf?, hk, hi]) hw
  | @bool t v =>
    intro loops q rest e' rest' n _ _ _ hw
    refine readBack_leaf ?_ hw
    cases v <;> simp [leaf?, hf.1]
  | str =>
    intro loops q rest e' rest' n _ _ _ hw
    obtain ⟨rfl, -⟩ := hf
    exact readBack_leaf rfl hw
  | unary _ ih =>
    intro loops q rest e' rest' n hc hq _ hw
    obtain ⟨ht, rfl, he⟩ := hf
    obtain ⟨m, hread⟩ := ih he hc (Nat.le_refl _) (.inr rfl) (.stop hc.stops)
    rcases ht with rfl | rfl
    · exact ⟨_, .expr rfl (.unary (.inl rfl) hread) hw⟩
    · exact ⟨_, .expr rfl (.unary (.inr rfl) hread) hw⟩
  | binary _ _ ihl ihr =>
    obtain ⟨-, hb, hop, hl, hr⟩ := hf
    exact readBack_binary (ihl hl) (ihr hr) hb hop
  | call _ _ ihf iha =>
    obtain ⟨rfl, hf, ha⟩ := hf
    exact readBack_call (ihf hf) (iha ha)
  | oneWay _ _ ihc iha =>
    intro loops q rest e' rest' n hc _ _ hw
    obtain ⟨rfl, hcf, haf, -⟩ := hf
    obtain ⟨i, ha⟩ := iha haf loops rest
    obtain ⟨j, hcond⟩ := readBack_condition (ihc hcf) loops _
    rw [List.cons_append, List.append_assoc]
    exact ⟨_, .expr rfl (.choose rfl hcond (.oneWay ha hc.noElse)) hw⟩
  | twoWays _ _ _ ihc iha ihb =>
    intro loops q rest e' rest' n _ _ _ hw
    obtain ⟨rfl, hcf, haf, hbf⟩ := hf
    obtain ⟨i, hb⟩ := ihb hbf loops rest
    obtain ⟨j, ha⟩ := iha haf loops (mark .kwElse :: _)
    obtain ⟨k, hcond⟩ := readBack_condition (ihc hcf) loops _
    rw [List.cons_append, List.append_assoc, List.append_assoc]
    exact ⟨_, .expr rfl (.choose rfl hcond (.twoWays rfl ha hb)) hw⟩
  | loop _ _ ihc ihb =>
    intro loops q rest e' rest' n _ _ _ hw
    obtain ⟨rfl, hcf, hbf⟩ := hf
    obtain ⟨i, hb⟩ := ihb hbf (loops + 1) rest
    obtain ⟨j, hcond⟩ := readBack_condition (ihc hcf) loops _
    rw [List.cons_append, List.append_assoc]
    exact ⟨_, .expr rfl (.loop rfl hcond hb) hw⟩
  | fn _ ihb =>
    intro loops q rest e' rest' n _ _ _ hw
    obtain ⟨rfl, hx, hbf⟩ := hf
    obtain ⟨i, hb⟩ := ihb hbf 0 rest
    rw [List.cons_append, List.append_assoc, grouped, List.cons_append, List.append_assoc]
    have hfilled := Ident.forall_map_some.1 hx
    exact ⟨_, .expr rfl (.fn rfl rfl (params_paramTokens hfilled) hb) hw⟩
  | tight hp _ ih => exact readBack_tight hp (ih hf)
  | operand _ ih => exact fun _ _ _ hw => readBack_group (ih hf) hw
  | whole _ ih =>
    intro loops rest hc
    -- Nothing is pending, and every operator binds tighter than that.
    have hlt := Expr.lowest_lt_power hf
    exact ih hf (hc.mono (Nat.le_of_lt hlt)) (by decide) (.inl hlt) (.stop hc.stops)
  | group _ ih => exact fun loops rest hc => readBack_group (ih hf) (.stop hc.stops)
  | noArgs => exact fun loops rest => ⟨0, .noArgs rfl⟩
  | lastArg _ ih =>
    intro loops rest
    obtain ⟨m, he⟩ := ih hf.1 loops (mark .rparen :: rest) .rparen
    rw [List.append_assoc]
    exact ⟨_, .someArgs he (.lastArg rfl)⟩
  | nextArg _ _ ihe ihes =>
    intro loops rest
    obtain ⟨i, hes⟩ := ihes hf.2 loops rest
    obtain ⟨j, he⟩ := ihe hf.1 loops (mark .comma :: _) (.cons (by decide) (by simp))
    obtain ⟨k, hmore⟩ := moreArgs_of_args (mark_kind .comma) hes
    rw [List.append_assoc]
    exact ⟨_, .someArgs he hmore⟩
  | block _ ih =>
    intro loops rest
    obtain ⟨rfl, hs⟩ := hf
    obtain ⟨m, hb⟩ := (ih hs).2 loops rest
    rw [List.cons_append, List.append_assoc]
    exact ⟨m, .block rfl hb⟩
  | @bind t x e ts _ ih =>
    obtain ⟨rfl, hx, he⟩ := hf
    refine ⟨_, _, rfl, fun loops rest => ?_⟩
    obtain ⟨m, hread⟩ := ih he loops (mark .semicolon :: rest) .semicolon
    have hstmt := Reads.bind (mark_kind .kwLet) (hx x rfl).1 (mark_kind .assign) hread
    rw [(hx x rfl).ofToken_token] at hstmt
    rw [List.cons_append, List.cons_append, List.append_assoc]
    exact ⟨m, hstmt⟩
  | bareRet =>
    obtain ⟨rfl, -⟩ := hf
    exact ⟨_, _, rfl, fun loops rest => ⟨0, .bareReturn rfl rfl⟩⟩
  | ret _ ih =>
    obtain ⟨rfl, he⟩ := hf
    refine ⟨_, _, rfl, fun loops rest => ?_⟩
    obtain ⟨m, hread⟩ := ih he loops (mark .semicolon :: rest) .semicolon
    rw [List.append_assoc]
    exact ⟨m, .valueReturn rfl hread⟩
  | brk =>
    obtain rfl := hf
    exact ⟨_, _, rfl, fun loops rest => ⟨_, .brk rfl⟩⟩
  | expr _ ht ih =>
    obtain ⟨ts, rfl⟩ := List.head?_eq_some_iff.1 (ht rfl)
    refine ⟨_, ts ++ [mark .semicolon], rfl, fun loops rest => ?_⟩
    obtain ⟨m, hread⟩ := ih hf loops (mark .semicolon :: rest) .semicolon
    rw [List.append_assoc]
    exact ⟨m, .exprStmt hread⟩
  | nil => exact ⟨⟨0, .nil⟩, fun loops rest => ⟨0, .close rfl⟩⟩
  | cons _ _ ihs ihss =>
    obtain ⟨t, ts, rfl, hs⟩ : ∃ _ _, _ ∧ _ := ihs hf.1
    obtain ⟨⟨i, hall⟩, hbody⟩ := ihss hf.2
    -- Statements stand at the top of a source or in a block.
    constructor
    · obtain ⟨j, hfirst⟩ := hs 0 _
      exact ⟨_, .cons hfirst hall⟩
    · intro loops rest
      obtain ⟨i, hrest⟩ := hbody loops rest
      obtain ⟨j, hfirst⟩ := hs loops _
      rw [List.append_assoc]
      exact ⟨_, .next hfirst hrest⟩

/-! ### Programs -/

/-- A tree that knows the tokens of its expression statements is read back as it is. -/
theorem parse_writtenExactly {p : Program} {ts : List Token} (h : p.WrittenExactly ts)
    (hf : Stmt.FilledAll p.stmts) (hb : p.strayBreaks = 0) :
    parse (String.ofList (spaced ts)) = ⟨p, []⟩ := by
  obtain ⟨⟨n, hread⟩, -⟩ := Written.readBack h hf
  -- The rules count the stray breaks of the tree, and there are none.
  have hn : n = 0 := hread.strayBreaks.symm.trans hb
  rw [parse, String.toList_ofList, tokenize_spaced (Written.lexes h hf),
    parseTokens_eq_of_readsAll hread, hn]
  rfl

/-- **Reading undoes writing.**  A well-formed tree can be written out, and the text of whatever
    it is written out to, with spaces between the tokens, is read without faults.  What is read is
    the tree, where the token of an expression statement is the one that the statement starts with
    in the text. -/
theorem parse_written {p : Program} (hp : p.WellFormed) :
    (∃ ts, p.Written ts) ∧
    ∀ ts, p.Written ts → ∃ p' : Program, parse (String.ofList (spaced ts)) = ⟨p', []⟩ ∧
      p'.unstamped = p.unstamped ∧ p'.WrittenExactly ts ∧ (p.WrittenExactly ts → p' = p) := by
  refine ⟨⟨p.tokens, hp.written⟩, fun ts h => ?_⟩
  obtain ⟨ss, hss, hf, hw⟩ := Written.restamped h hp.filled
  have hsame : (⟨ss⟩ : Program).unstamped = p.unstamped := congrArg Program.mk hss
  have hparse : parse (String.ofList (spaced ts)) = ⟨⟨ss⟩, []⟩ :=
    parse_writtenExactly hw hf ((Program.strayBreaks_congr hsame).trans hp.breaks)
  refine ⟨⟨ss⟩, hparse, hsame, hw, fun hexact => ?_⟩
  -- Two trees that are exactly written out to the same tokens are both what is read.
  have hparse' := parse_writtenExactly hexact hp.filled hp.breaks
  exact congrArg Parsed.program (hparse.symm.trans hparse')

/-- The program `( a + b ) * - 7 ;`, where the parentheses are needed. -/
def scaledSum : Program :=
  ⟨[.expr (mark .lparen)
    (.binary (mark .asterisk)
      (.binary (mark .plus) (.ident (.ofToken ⟨.ident, "a"⟩)) "+" (.ident (.ofToken ⟨.ident, "b"⟩)))
      "*" (.unary (mark .minus) "-" (.int ⟨.int, "7"⟩ (some 7))))]⟩

/-- `scaledSum` is a tree that a source can have. -/
theorem scaledSum_wellFormed : scaledSum.WellFormed where
  complete := by simp [scaledSum, Program.Complete, Stmt.CompleteAll, Stmt.Complete, Expr.Complete]
  breaks := by decide
  filled := by
    have ha : Token.Lexes ⟨.ident, "a"⟩ := lexes_of_scan rfl (by decide) (by decide +kernel)
    have hb : Token.Lexes ⟨.ident, "b"⟩ := lexes_of_scan rfl (by decide) (by decide +kernel)
    have hi : Token.Lexes ⟨.int, "7"⟩ := lexes_of_scan rfl (by decide) (by decide +kernel)
    exact ⟨⟨rfl, rfl, rfl, ⟨rfl, rfl, rfl, ⟨rfl, ha, rfl⟩, ⟨rfl, hb, rfl⟩⟩,
      .inr rfl, rfl, rfl, hi, 7, rfl, rfl⟩, trivial⟩

/-- `scaledSum` is written with the parentheses that it needs, and no others. -/
theorem scaledSum_written : scaledSum.WrittenExactly scaledSum.tokens := by
  have hseven : Written true (.operand Power.unary (.int ⟨.int, "7"⟩ (some 7))) [⟨.int, "7"⟩] :=
    .tight (by decide) .int
  have hsum : Written true (.bare (.binary (mark .plus) (.ident (.ofToken ⟨.ident, "a"⟩)) "+"
      (.ident (.ofToken ⟨.ident, "b"⟩)))) [⟨.ident, "a"⟩, mark .plus, ⟨.ident, "b"⟩] :=
    .binary (.tight (by decide) .ident) (.tight (by decide) .ident)
  exact .cons (.expr (.whole (.binary (.operand (.whole hsum)) (.tight (by decide)
    (.unary hseven)))) fun _ => rfl) .nil

/-- The parser reads `scaledSum` from its text. -/
theorem parse_scaledSum : parse "( a + b ) * - 7 ;" = ⟨scaledSum, []⟩ := by
  obtain ⟨p, hparse, -, -, hexact⟩ :=
    (parse_written scaledSum_wellFormed).2 scaledSum.tokens scaledSum_wellFormed.written
  rw [hexact scaledSum_written] at hparse
  exact hparse

end Incognita
