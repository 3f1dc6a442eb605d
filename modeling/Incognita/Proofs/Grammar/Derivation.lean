import Incognita.Proofs.Reading.Rules

namespace Incognita

/-!
# Grammar — the sentences of the language

The grammar of the language, with no regard to how operators bind or where one statement ends
and the next one starts: `a (b)` is a call as well as two statements, and `a - b` is a
difference as well as a name and a negative.

* `Grammar.Symbol` — the kinds of phrases;
* `Grammar.Derives X ts rest` — the tokens `ts` start with a phrase `X`, and `rest` is what
  follows it.  The last part of the grammar that looks further is a return without a value and
  without a semicolon, which may only stand in front of a closing brace or the end;
* `Grammar.Sentence` — a token list that is a list of statements;
* `Parser.Reads.derives` — what is read by the rules is a phrase;
* `Parser.Reads.covers` — and every integer in it is in range.
-/

/-- An integer token spells a number below `2 ^ 63`.  There is nothing to ask of other tokens. -/
def Token.InRange (t : Token) : Prop :=
  t.kind = .int → Text.natOfDigits t.literal.toList < Nat.pow 2 63

namespace Grammar

/-- The operators that stand between two operands. -/
def isBinary : Token.Kind → Bool
  | .plus | .minus | .asterisk | .slash | .eq | .notEq | .lt | .gt | .lte | .gte | .and
  | .or => true
  | _ => false

/-- The tokens that are an expression by themselves. -/
def isLeaf : Token.Kind → Bool
  | .ident | .int | .string | .kwTrue | .kwFalse => true
  | _ => false

/-- The kinds of phrases. -/
inductive Symbol where
  /-- Any number of statements. -/
  | stmts
  | stmt
  /-- A semicolon, or nothing. -/
  | ending
  | expr
  /-- Expressions with commas between them, at least one. -/
  | exprs
  /-- An expression in parentheses. -/
  | condition
  /-- Names with commas between them, at least one. -/
  | names
  /-- Statements in braces. -/
  | block

/-- The tokens of the first list start with a phrase, and the second list is what follows it. -/
inductive Derives : Symbol → List Token → List Token → Prop
  /-- `stmts →` -/
  | noStmt {ts} : Derives .stmts ts ts
  /-- `stmts → stmt stmts` -/
  | moreStmts {ts mid rest} : Derives .stmt ts mid → Derives .stmts mid rest →
      Derives .stmts ts rest
  /-- `ending →` -/
  | noEnding {ts} : Derives .ending ts ts
  /-- `ending → ;` -/
  | ending {t ts} : t.kind = .semicolon → Derives .ending (t :: ts) ts
  /-- `stmt → incognita NAME = expr ending` -/
  | bind {t x a ts mid rest} : t.kind = .kwLet → x.kind = .ident → a.kind = .assign →
      Derives .expr ts mid → Derives .ending mid rest → Derives .stmt (t :: x :: a :: ts) rest
  /-- `stmt → devuelve expr ending` -/
  | valueReturn {t ts mid rest} : t.kind = .kwReturn → Derives .expr ts mid →
      Derives .ending mid rest → Derives .stmt (t :: ts) rest
  /-- `stmt → devuelve ;` -/
  | bareReturn {t u ts} : t.kind = .kwReturn → u.kind = .semicolon → Derives .stmt (t :: u :: ts) ts
  /-- `stmt → devuelve`, in front of a closing brace or the end. -/
  | lastReturn {t ts} : t.kind = .kwReturn → Parser.peek ts = .rbrace ∨ Parser.peek ts = .eof →
      Derives .stmt (t :: ts) ts
  /-- `stmt → termina ending` -/
  | brk {t ts rest} : t.kind = .kwBreak → Derives .ending ts rest → Derives .stmt (t :: ts) rest
  /-- `stmt → expr ending` -/
  | exprStmt {ts mid rest} : Derives .expr ts mid → Derives .ending mid rest →
      Derives .stmt ts rest
  /-- `expr → NAME`, and the same for integers, strings, `verdadero` and `falso`. -/
  | leaf {t ts} : isLeaf t.kind = true → Derives .expr (t :: ts) ts
  /-- `expr → ( expr )` -/
  | group {t u ts rest} : t.kind = .lparen → Derives .expr ts (u :: rest) → u.kind = .rparen →
      Derives .expr (t :: ts) rest
  /-- `expr → ! expr` and `expr → - expr` -/
  | unary {t ts rest} : t.kind = .bang ∨ t.kind = .minus → Derives .expr ts rest →
      Derives .expr (t :: ts) rest
  /-- `expr → expr OPERATOR expr`, without any power: the grammar is ambiguous. -/
  | binary {t ts mid rest} : Derives .expr ts (t :: mid) → isBinary t.kind = true →
      Derives .expr mid rest → Derives .expr ts rest
  /-- `expr → expr ( )` -/
  | noArgs {t u ts rest} : Derives .expr ts (t :: u :: rest) → t.kind = .lparen →
      u.kind = .rparen → Derives .expr ts rest
  /-- `expr → expr ( exprs )` -/
  | someArgs {t u ts mid rest} : Derives .expr ts (t :: mid) → t.kind = .lparen →
      Derives .exprs mid (u :: rest) → u.kind = .rparen → Derives .expr ts rest
  /-- `expr → si condition block` -/
  | oneWay {t ts mid rest} : t.kind = .kwIf → Derives .condition ts mid → Derives .block mid rest →
      Derives .expr (t :: ts) rest
  /-- `expr → si condition block tonces block` -/
  | twoWays {t u ts mid mid' rest} : t.kind = .kwIf → Derives .condition ts mid →
      Derives .block mid (u :: mid') → u.kind = .kwElse → Derives .block mid' rest →
      Derives .expr (t :: ts) rest
  /-- `expr → mientras condition block` -/
  | loop {t ts mid rest} : t.kind = .kwWhile → Derives .condition ts mid →
      Derives .block mid rest → Derives .expr (t :: ts) rest
  /-- `expr → operacion ( ) block` -/
  | noParams {t u v ts rest} : t.kind = .kwFunction → u.kind = .lparen → v.kind = .rparen →
      Derives .block ts rest → Derives .expr (t :: u :: v :: ts) rest
  /-- `expr → operacion ( names ) block` -/
  | someParams {t u v ts mid rest} : t.kind = .kwFunction → u.kind = .lparen →
      Derives .names ts (v :: mid) → v.kind = .rparen → Derives .block mid rest →
      Derives .expr (t :: u :: ts) rest
  /-- `exprs → expr` -/
  | lastExpr {ts rest} : Derives .expr ts rest → Derives .exprs ts rest
  /-- `exprs → expr , exprs` -/
  | nextExpr {t ts mid rest} : Derives .expr ts (t :: mid) → t.kind = .comma →
      Derives .exprs mid rest → Derives .exprs ts rest
  /-- `condition → ( expr )` -/
  | condition {t u ts rest} : t.kind = .lparen → Derives .expr ts (u :: rest) → u.kind = .rparen →
      Derives .condition (t :: ts) rest
  /-- `names → NAME` -/
  | lastName {t ts} : t.kind = .ident → Derives .names (t :: ts) ts
  /-- `names → NAME , names` -/
  | nextName {t u ts rest} : t.kind = .ident → u.kind = .comma → Derives .names ts rest →
      Derives .names (t :: u :: ts) rest
  | block {t u ts rest} : t.kind = .lbrace → Derives .stmts ts (u :: rest) → u.kind = .rbrace →
      Derives .block (t :: ts) rest

/-- A token list that is a list of statements. -/
def Sentence (ts : List Token) : Prop := Derives .stmts ts []

/-- What follows a phrase is the end of the tokens that the phrase stands at the front of. -/
theorem Derives.suffix {X : Symbol} {ts rest : List Token} (h : Derives X ts rest) :
    rest <:+ ts := by
  induction h with
  | noStmt | noEnding => exact List.suffix_refl _
  -- Every rule takes tokens from the front only.
  | moreStmts _ _ ih ih' => exact ih'.trans ih
  | ending | lastReturn | leaf | lastName => exact List.suffix_cons _ _
  | bareReturn => exact (List.suffix_cons _ _).trans (List.suffix_cons _ _)
  | bind _ _ _ _ _ ih ih' =>
    exact ((((ih'.trans ih).trans (List.suffix_cons _ _)).trans (List.suffix_cons _ _))).trans
      (List.suffix_cons _ _)
  | valueReturn _ _ _ ih ih' => exact (ih'.trans ih).trans (List.suffix_cons _ _)
  | brk _ _ ih => exact ih.trans (List.suffix_cons _ _)
  | exprStmt _ _ ih ih' => exact ih'.trans ih
  | group _ _ _ ih | condition _ _ _ ih | block _ _ _ ih =>
    exact ((List.suffix_cons _ _).trans ih).trans (List.suffix_cons _ _)
  | unary _ _ ih => exact ih.trans (List.suffix_cons _ _)
  | binary _ _ _ ih ih' | nextExpr _ _ _ ih ih' =>
    exact (ih'.trans (List.suffix_cons _ _)).trans ih
  | noArgs _ _ _ ih => exact ((List.suffix_cons _ _).trans (List.suffix_cons _ _)).trans ih
  | someArgs _ _ _ _ ih ih' =>
    exact (((List.suffix_cons _ _).trans ih').trans (List.suffix_cons _ _)).trans ih
  | oneWay _ _ _ ih ih' | loop _ _ _ ih ih' => exact (ih'.trans ih).trans (List.suffix_cons _ _)
  | twoWays _ _ _ _ _ ih ih' ih'' =>
    exact (((ih''.trans (List.suffix_cons _ _)).trans ih').trans ih).trans (List.suffix_cons _ _)
  | noParams _ _ _ _ ih =>
    exact ((ih.trans (List.suffix_cons _ _)).trans (List.suffix_cons _ _)).trans
      (List.suffix_cons _ _)
  | someParams _ _ _ _ _ ih ih' =>
    exact (((ih'.trans (List.suffix_cons _ _)).trans ih).trans (List.suffix_cons _ _)).trans
      (List.suffix_cons _ _)
  | lastExpr _ ih => exact ih
  | nextName _ _ _ ih => exact (ih.trans (List.suffix_cons _ _)).trans (List.suffix_cons _ _)

end Grammar

namespace Parser

open Grammar

/-! ### What is read is a phrase -/

/-- What the reader does with a semicolon behind a statement is what `.ending` allows. -/
theorem ending_skipSemicolon (ts : List Token) : Derives .ending ts (skipSemicolon ts) := by
  cases ts with
  | nil => exact .noEnding
  | cons t ts =>
    rw [skipSemicolon]
    split
    · next h => exact .ending h
    · exact .noEnding

/-- A return that ends at once is one of the two returns without a value. -/
theorem derives_of_endsReturn {t : Token} {ts : List Token} (hk : t.kind = .kwReturn)
    (hr : endsReturn (peek ts) = true) : Derives .stmt (t :: ts) (skipSemicolon ts) := by
  cases ts with
  | nil => exact .lastReturn hk (.inr rfl)
  | cons u us =>
    rw [skipSemicolon]
    split
    · next hu => exact .bareReturn hk hu
    · next hu =>
      -- Without a semicolon only a closing brace or the end is left.
      refine .lastReturn hk ?_
      cases hp : u.kind <;> simp_all [peek, endsReturn]

/-- Names with their closing parenthesis. -/
theorem derives_of_moreParams {t : Token} {ts : List Token} {names : List Ident}
    (ht : t.kind = .ident) (h : (moreParams ts).value = some names) :
    ∃ u, u.kind = .rparen ∧ Derives .names (t :: ts) (u :: (moreParams ts).rest) := by
  -- The name in front of the comma is the one that was read before.
  fun_induction moreParams ts generalizing t names with
  | case5 u v ts hu hv ih =>
    simp only [Step.map, Option.map_eq_some_iff] at h
    obtain ⟨names', h', -⟩ := h
    obtain ⟨w, hw, hd⟩ := ih hv h'
    exact ⟨w, hw, .nextName ht hu hd⟩
  | case3 u _ hu => exact ⟨u, hu, .lastName ht⟩
  | case7 u v ts _ hu => exact ⟨u, hu, .lastName ht⟩
  | case1 | case2 | case4 | case6 | case8 => simp at h

/-- The parameters that the reader takes are those of the grammar, and the body stands behind
    them. -/
theorem derives_of_params {t u : Token} {ts mid rest : List Token} {names : List Ident}
    (ht : t.kind = .kwFunction) (hu : u.kind = .lparen) (hp : params ts = ⟨some names, mid, []⟩)
    (hb : Derives .block mid rest) : Derives .expr (t :: u :: ts) rest := by
  cases ts with
  | nil => simp [params] at hp
  | cons v ts =>
    rw [params] at hp
    split at hp
    · next hv =>
      obtain ⟨-, rfl⟩ : _ ∧ ts = mid := by simpa using hp
      exact .noParams ht hu hv hb
    · split at hp
      · next hv =>
        have hm : (moreParams ts).rest = mid := congrArg Step.rest hp
        obtain ⟨names', hn, -⟩ := Option.map_eq_some_iff.1 (congrArg Step.value hp)
        obtain ⟨w, hw, hd⟩ := derives_of_moreParams hv hn
        rw [hm] at hd
        exact .someParams ht hu hd hw hb
      · simp at hp

/-- The power is one that an operator can have.  Below the lowest one every token would be
    an operator. -/
def Task.Powered : Task → Prop
  | .expr _ power _ | .operators _ power _ _ => Power.lowest ≤ power
  | _ => True

/-- What the call reads is a phrase, together with the phrase that was read before it. -/
def Task.Derived : (k : Task) → List Token → Prop
  | .expr _ _ ts, rest => Derives .expr ts rest
  | .operand _ t ts, rest => Derives .expr (t :: ts) rest
  | .operators _ _ _ ts, rest => ∀ front, Derives .expr front ts → Derives .expr front rest
  | .args _ ts, rest =>
    ∀ front t, t.kind = .lparen → Derives .expr front (t :: ts) → Derives .expr front rest
  | .moreArgs _ ts, rest =>
    ∀ front, Derives .expr front ts → ∃ u, u.kind = .rparen ∧ Derives .exprs front (u :: rest)
  | .condition _ ts, rest => Derives .condition ts rest
  | .choice _ t _ ts, rest =>
    t.kind = .kwIf → ∀ front, Derives .condition front ts → Derives .expr (t :: front) rest
  | .block _ ts, rest => Derives .block ts rest
  | .body _ ts, rest => ∃ u, u.kind = .rbrace ∧ Derives .stmts ts (u :: rest)
  | .stmt _ t ts, rest => Derives .stmt (t :: ts) rest

/-- No token binds less tightly than `Power.lowest`. -/
theorem lowest_le_ofKind (k : Token.Kind) : Power.lowest ≤ Power.ofKind k := by
  cases k <;> decide

/-- Nor do the signs in front of an operand. -/
theorem lowest_le_unary : Power.lowest ≤ Power.unary := by decide

/-- A token that binds tighter than some operator is an operator itself. -/
theorem isBinary_of_lt {power : Power} {k : Token.Kind} (hl : Power.lowest ≤ power)
    (hp : power < Power.ofKind k) (hk : k ≠ .lparen) : isBinary k = true := by
  -- The tokens that are no operators have the lowest power.
  have hlt : Power.lowest < Power.ofKind k := Nat.lt_of_le_of_lt hl hp
  cases k <;> first | rfl | exact absurd rfl hk | exact absurd hlt (by decide)

/-- What the reader takes for an expression by itself is one in the grammar. -/
theorem isLeaf_of_leaf {t : Token} {e : Expr} (h : leaf? t = some e) : isLeaf t.kind = true := by
  rw [leaf?] at h
  split at h <;> simp_all [isLeaf]

/-- **What is read is a phrase.**  The grammar is ambiguous where the reader is not, so a reading
    gives one of the derivations of its tokens. -/
theorem Reads.derives {k : Task} {v : k.Result} {rest : List Token} {n : Nat}
    (h : Reads k v rest n) (hp : k.Powered) : k.Derived rest := by
  -- Operators and arguments come behind a phrase that was read before them.
  induction h with
  | expr _ _ _ ihl ihw => exact ihw hp _ (ihl trivial)
  | leaf h => exact .leaf (isLeaf_of_leaf h)
  | unary hk _ ih => exact .unary hk (ih lowest_le_unary)
  | group hk hu _ ih => exact .group hk (ih (Nat.le_refl _)) hu
  | choose hk _ _ ihc ihw => exact ihw trivial hk _ (ihc trivial)
  | loop hk _ _ ihc ihb => exact .loop hk (ihc trivial) (ihb trivial)
  | fn hk hu hps _ ihb => exact derives_of_params hk hu hps (ihb trivial)
  | stop _ => exact fun _ hd => hd
  | call _ hk _ _ iha ihw => exact fun front hd => ihw hp front (iha trivial front _ hk hd)
  | binary hlt hk _ _ ihr ihw =>
    intro front hd
    exact ihw hp front (.binary hd (isBinary_of_lt hp hlt hk) (ihr (lowest_le_ofKind _)))
  | noArgs hk => exact fun front t ht hd => .noArgs hd ht hk
  | someArgs _ _ ihe ihes =>
    intro front t ht hd
    obtain ⟨u, hu, hes⟩ := ihes trivial _ (ihe (Nat.le_refl _))
    exact .someArgs hd ht hes hu
  | lastArg hk => exact fun front hd => ⟨_, hk, .lastExpr hd⟩
  | nextArg hk _ _ ihe ihes =>
    intro front hd
    obtain ⟨u, hu, hes⟩ := ihes trivial _ (ihe (Nat.le_refl _))
    exact ⟨u, hu, .nextExpr hd hk hes⟩
  | condition hk hu _ ih => exact .condition hk (ih (Nat.le_refl _)) hu
  | oneWay _ _ iha => exact fun hk front hc => .oneWay hk hc (iha trivial)
  | twoWays hu _ _ iha ihb =>
    exact fun hk front hc => .twoWays hk hc (iha trivial) hu (ihb trivial)
  | block hk _ ih =>
    obtain ⟨u, hu, hd⟩ := ih trivial
    exact .block hk hd hu
  | close hk => exact ⟨_, hk, .noStmt⟩
  | next _ _ ihs ihss =>
    obtain ⟨u, hu, hd⟩ := ihss trivial
    exact ⟨u, hu, .moreStmts (ihs trivial) hd⟩
  | bind hk hx ha _ ih => exact .bind hk hx ha (ih (Nat.le_refl _)) (ending_skipSemicolon _)
  | bareReturn hk hr => exact derives_of_endsReturn hk hr
  | valueReturn hk _ ih => exact .valueReturn hk (ih (Nat.le_refl _)) (ending_skipSemicolon _)
  | brk hk => exact .brk hk (ending_skipSemicolon _)
  | exprStmt _ ih => exact .exprStmt (ih (Nat.le_refl _)) (ending_skipSemicolon _)

/-- **What is read from a source is a sentence.** -/
theorem ReadsAll.sentence {ts : List Token} {ss : List Stmt} {n : Nat} (h : ReadsAll ts ss n) :
    Sentence ts := by
  induction h with
  | nil => exact .noStmt
  | cons hs _ ih => exact .moreStmts (hs.derives trivial) ih

/-! ### What is read has its integers in range -/

/-- The tokens of the first list are in range, those of the second one apart. -/
def Covers (ts rest : List Token) : Prop := ∀ x ∈ ts, x.InRange ∨ x ∈ rest

namespace Covers

variable {t : Token} {ts mid rest : List Token}

theorem refl (ts : List Token) : Covers ts ts := fun _ hx => .inr hx

/-- Two readings one behind the other cover what each of them covers. -/
theorem trans (h : Covers ts mid) (h' : Covers mid rest) : Covers ts rest := by
  intro x hx
  rcases h x hx with hr | hm
  · exact .inl hr
  · exact h' x hm

/-- A token in range in front of covered tokens. -/
theorem cons (ht : t.InRange) (h : Covers ts rest) : Covers (t :: ts) rest := by
  intro x hx
  rcases List.mem_cons.1 hx with rfl | hx
  · exact .inl ht
  · exact h x hx

/-- A token of another kind is in range. -/
theorem consKind {k : Token.Kind} (ht : t.kind = k) (hk : k ≠ .int) (h : Covers ts rest) :
    Covers (t :: ts) rest :=
  h.cons fun hi => absurd (ht.symm.trans hi) hk

/-- A token that is no integer is in range anyway, so it need not be among those that are left. -/
theorem dropKind {k : Token.Kind} (h : Covers ts (t :: rest)) (ht : t.kind = k) (hk : k ≠ .int) :
    Covers ts rest :=
  h.trans ((refl rest).consKind ht hk)

/-- A semicolon that is passed over is no integer. -/
theorem skipSemicolon (ts : List Token) : Covers ts (Parser.skipSemicolon ts) := by
  cases ts with
  | nil => exact refl []
  | cons t ts =>
    rw [Parser.skipSemicolon]
    split
    · next h => exact (refl ts).consKind h (by simp)
    · exact refl _

/-- Commas and names are no integers, so they are all in range. -/
theorem moreParams {names : List Ident} (h : (moreParams ts).value = some names) :
    Covers ts (Parser.moreParams ts).rest := by
  fun_induction Parser.moreParams ts generalizing names with
  | case5 u v ts hu hv ih =>
    simp only [Step.map, Option.map_eq_some_iff] at h
    obtain ⟨names', h', -⟩ := h
    exact ((ih h').consKind hv (by simp)).consKind hu (by simp)
  | case3 u _ hu => exact (refl []).consKind hu (by simp)
  | case7 u v ts _ hu => exact (refl _).consKind hu (by simp)
  | case1 | case2 | case4 | case6 | case8 => simp at h

/-- The parentheses of parameters are no integers either. -/
theorem params {names : List Ident} (h : params ts = ⟨some names, mid, []⟩) : Covers ts mid := by
  cases ts with
  | nil => simp [Parser.params] at h
  | cons t ts =>
    rw [Parser.params] at h
    split at h
    · next ht =>
      obtain ⟨-, rfl⟩ : _ ∧ ts = mid := by simpa using h
      exact (refl ts).consKind ht (by simp)
    · split at h
      · next ht =>
        have hm : (Parser.moreParams ts).rest = mid := congrArg Step.rest h
        obtain ⟨names', hn, -⟩ := Option.map_eq_some_iff.1 (congrArg Step.value h)
        have hc := (moreParams hn).consKind ht (by simp)
        rwa [hm] at hc
      · simp at h

end Covers

/-- The tokens that a call gets, with the one that it starts with. -/
def Task.tokens : Task → List Token
  | .operand _ t ts | .stmt _ t ts => t :: ts
  | .expr _ _ ts | .operators _ _ _ ts | .args _ ts | .moreArgs _ ts | .condition _ ts
  | .choice _ _ _ ts | .block _ ts | .body _ ts => ts

/-- An integer token is an expression by itself only if its number has a value. -/
theorem leaf_inRange {t : Token} {e : Expr} (h : leaf? t = some e) : t.InRange := by
  intro hk
  simp only [leaf?, hk, Option.map_eq_some_iff] at h
  obtain ⟨n, hn, -⟩ := h
  rw [Text.int64OfDigits?] at hn
  split at hn
  · next hlt => exact hlt
  · exact absurd hn (by simp)

/-- **What is read has its integers in range.**  Every integer that is read has a value, and `leaf?`
    gives it one only below `2 ^ 63`. -/
theorem Reads.covers {k : Task} {v : k.Result} {rest : List Token} {n : Nat}
    (h : Reads k v rest n) (hp : k.Powered) : Covers k.tokens rest := by
  induction h with
  | expr _ _ _ ihl ihw => exact (ihl trivial).trans (ihw hp)
  | leaf h => exact (Covers.refl _).cons (leaf_inRange h)
  | unary hk _ ih => rcases hk with hk | hk <;> exact (ih lowest_le_unary).consKind hk (by simp)
  | group hk hu _ ih | condition hk hu _ ih =>
    exact ((ih (Nat.le_refl _)).dropKind hu (by simp)).consKind hk (by simp)
  | choose hk _ _ ihc ihw => exact ((ihc trivial).trans (ihw trivial)).consKind hk (by simp)
  | loop hk _ _ ihc ihb => exact ((ihc trivial).trans (ihb trivial)).consKind hk (by simp)
  | fn hk hu hps _ ihb =>
    exact (((Covers.params hps).trans (ihb trivial)).consKind hu (by simp)).consKind hk (by simp)
  | stop _ => exact Covers.refl _
  | call _ hk _ _ iha ihw => exact ((iha trivial).trans (ihw hp)).consKind hk (by simp)
  | binary hlt hk _ _ ihr ihw =>
    refine ((ihr (lowest_le_ofKind _)).trans (ihw hp)).cons fun hi => ?_
    -- An integer is no operator.
    have hb := isBinary_of_lt hp hlt hk
    rw [hi] at hb
    exact absurd hb (by simp [isBinary])
  | noArgs hk | lastArg hk | close hk => exact (Covers.refl _).consKind hk (by simp)
  | someArgs _ _ ihe ihes => exact (ihe (Nat.le_refl _)).trans (ihes trivial)
  | nextArg hk _ _ ihe ihes =>
    exact ((ihe (Nat.le_refl _)).trans (ihes trivial)).consKind hk (by simp)
  | oneWay _ _ iha => exact iha trivial
  | twoWays hu _ _ iha ihb => exact ((iha trivial).dropKind hu (by simp)).trans (ihb trivial)
  | block hk _ ih => exact (ih trivial).consKind hk (by simp)
  | next _ _ ihs ihss => exact (ihs trivial).trans (ihss trivial)
  | bind hk hx ha _ ih =>
    have hrest := (ih (Nat.le_refl _)).trans (.skipSemicolon _)
    exact ((hrest.consKind ha (by simp)).consKind hx (by simp)).consKind hk (by simp)
  | bareReturn hk _ | brk hk => exact (Covers.skipSemicolon _).consKind hk (by simp)
  | valueReturn hk _ ih =>
    exact ((ih (Nat.le_refl _)).trans (.skipSemicolon _)).consKind hk (by simp)
  | exprStmt _ ih => exact (ih (Nat.le_refl _)).trans (.skipSemicolon _)

/-- All integers of tokens that are read without faults are in range: what a statement takes is
    covered, and nothing is left in the end. -/
theorem ReadsAll.inRange {ts : List Token} {ss : List Stmt} {n : Nat} (h : ReadsAll ts ss n) :
    ∀ t ∈ ts, t.InRange := by
  induction h with
  | nil => simp
  | cons hs _ ih =>
    intro x hx
    rcases hs.covers trivial x hx with hr | hr
    · exact hr
    · exact ih x hr

end Parser

end Incognita
