import Incognita.Proofs.Concatenation
import Incognita.Proofs.Reading.Filled

namespace Incognita

open Token (Delimits)

/-!
# Parser — optional semicolons

A semicolon ends a statement, and so does whatever cannot go on with it.  In a source without faults
the next token behind a semicolon starts a statement or closes a block.  Unless it is an opening
parenthesis or a minus sign it is no operator, nor does it start an alternative, so all that was
waiting in front of the semicolon also stops in front of that token.  A return is different: without
the semicolon behind it, it would take the next statement for its value.

* `Parser.followsStmt`, `Tidy` — what may stand behind a statement, and token lists in which it does
  behind every semicolon;
* `Parser.ReadsAll.tidy` — a source without faults is one;
* `Thinner` — a token list with semicolons left out where nothing takes their place;
* `Parser.Reads.thinned` — a call reads the same from it;
* `Token.exists_before_semicolon` — where in a source a semicolon is;
* `parse_without_semicolon` — a source reads the same with a space in the place of a semicolon.
-/

namespace Parser

/-! ### What stands behind a semicolon -/

/-- Whether a token of the kind starts a statement, or else closes a block or ends the source. -/
def followsStmt : Token.Kind → Bool
  | .kwLet | .kwReturn | .kwBreak | .rbrace | .eof => true
  | k => startsExpr k

/-- Behind every semicolon comes what may follow a statement. -/
def Tidy : List Token → Prop
  | [] => True
  | t :: ts => (t.kind = .semicolon → followsStmt (peek ts) = true) ∧ Tidy ts

namespace Tidy

variable {t : Token} {ts us : List Token} {k : Token.Kind}

/-- A token that is no semicolon may be put in front of a tidy list. -/
theorem cons (h : Tidy ts) (ht : t.kind = k) (hk : k ≠ .semicolon) : Tidy (t :: ts) :=
  ⟨fun hs => absurd (ht.symm.trans hs) hk, h⟩

/-- The semicolon of a statement stands in front of what follows the statement. -/
theorem of_skipSemicolon (h : Tidy (skipSemicolon ts))
    (hf : followsStmt (peek (skipSemicolon ts)) = true) : Tidy ts := by
  cases ts with
  | nil => trivial
  | cons t ts =>
    rw [skipSemicolon] at h hf
    split at h
    · next ht =>
      rw [if_pos ht] at hf
      exact ⟨fun _ => hf, h⟩
    · exact h

/-- The end of a tidy list is tidy. -/
theorem of_append (h : Tidy (ts ++ us)) : Tidy us := by
  induction ts with
  | nil => exact h
  | cons t ts ih => exact ih h.2

/-- Reading names leaves a tidy list tidy. -/
theorem of_names {names : List Ident} (h : ReadsNames ts names us) (hus : Tidy us) : Tidy ts := by
  induction h with
  | close hk => exact hus.cons hk (by simp)
  | next hk hu _ ih => exact ((ih hus).cons hu (by simp)).cons hk (by simp)

/-- There are no semicolons between parameters. -/
theorem of_params {names : List Ident} (h : ReadsParams ts names us) (hus : Tidy us) :
    Tidy ts := by
  cases h with
  | close hk => exact hus.cons hk (by simp)
  | first hk h => exact (of_names h hus).cons hk (by simp)

end Tidy

/-- A statement starts with a token that may follow one, and that is no semicolon. -/
theorem Reads.stmt_head {loops n : Nat} {t : Token} {ts rest : List Token} {s : Option Stmt}
    (h : Reads (.stmt loops t ts) s rest n) :
    followsStmt t.kind = true ∧ t.kind ≠ .semicolon := by
  cases h with
  | bind hk | bareReturn hk | valueReturn hk | brk hk => rw [hk]; simp [followsStmt]
  | exprStmt he =>
    obtain ⟨u, us, hus, hu⟩ := he.startsExpr_head
    obtain ⟨rfl, -⟩ := List.cons.inj hus
    revert hu
    cases t.kind <;> decide

/-- What stands in a block starts with what may follow a statement. -/
theorem Reads.body_head {loops n : Nat} {ts rest : List Token} {ss : List Stmt}
    (h : Reads (.body loops ts) ss rest n) : followsStmt (peek ts) = true := by
  cases h with
  | close hk => rw [peek, hk]; rfl
  | next hs => exact hs.stmt_head.1

/-- What follows the call, if it is a statement, may follow one. -/
def Task.Followed : Task → List Token → Prop
  | .stmt .., rest => followsStmt (peek rest) = true
  | _, _ => True

/-- Tokens that are read in front of tidy ones are tidy. -/
theorem Reads.tidy {k : Task} {v : k.Result} {rest : List Token} {n : Nat} (h : Reads k v rest n)
    (hp : k.Powered) (hf : k.Followed rest) (ht : Tidy rest) : Tidy k.tokens := by
  -- From the last token that is taken to the first one.
  induction h with
  | expr _ _ _ ihl ihw => exact ihl trivial trivial (ihw hp trivial ht)
  | leaf h => exact ht.cons rfl (leaf_ne_semicolon h)
  | unary hk _ ih =>
    have hts := ih lowest_le_unary trivial ht
    rcases hk with hk | hk <;> exact hts.cons hk (by simp)
  | group hk hu _ ih =>
    exact (ih (Nat.le_refl _) trivial (ht.cons hu (by simp))).cons hk (by simp)
  | choose hk _ _ ihc ihw | loop hk _ _ ihc ihw =>
    exact (ihc trivial trivial (ihw trivial trivial ht)).cons hk (by simp)
  | fn hk hu hps _ ihb =>
    have hparams := Tidy.of_params (readsParams_of_params hps) (ihb trivial trivial ht)
    exact (hparams.cons hu (by simp)).cons hk (by simp)
  | stop => exact ht
  | call _ hk _ _ iha ihw => exact (iha trivial trivial (ihw hp trivial ht)).cons hk (by simp)
  | binary hlt _ _ _ ihr ihw =>
    have hts := ihr (lowest_le_ofKind _) trivial (ihw hp trivial ht)
    exact hts.cons rfl (ne_semicolon_of_lt hp hlt)
  | noArgs hk | lastArg hk | close hk => exact ht.cons hk (by simp)
  | someArgs _ _ ihe ihes => exact ihe (Nat.le_refl _) trivial (ihes trivial trivial ht)
  | nextArg hk _ _ ihe ihes =>
    exact (ihe (Nat.le_refl _) trivial (ihes trivial trivial ht)).cons hk (by simp)
  | condition hk hu _ ih =>
    exact (ih (Nat.le_refl _) trivial (ht.cons hu (by simp))).cons hk (by simp)
  | oneWay _ _ iha => exact iha trivial trivial ht
  | twoWays hu _ _ iha ihb =>
    exact iha trivial trivial ((ihb trivial trivial ht).cons hu (by simp))
  | block hk _ ih => exact (ih trivial trivial ht).cons hk (by simp)
  | next _ hss ihs ihss => exact ihs trivial hss.body_head (ihss trivial trivial ht)
  | bind hk hx ha _ ih =>
    have hts := ih (Nat.le_refl _) trivial (ht.of_skipSemicolon hf)
    exact ((hts.cons ha (by simp)).cons hx (by simp)).cons hk (by simp)
  | bareReturn hk => exact (ht.of_skipSemicolon hf).cons hk (by simp)
  | valueReturn hk _ ih =>
    exact (ih (Nat.le_refl _) trivial (ht.of_skipSemicolon hf)).cons hk (by simp)
  | brk hk => exact (ht.of_skipSemicolon hf).cons hk (by simp)
  | exprStmt _ ih => exact ih (Nat.le_refl _) trivial (ht.of_skipSemicolon hf)

/-- **Behind every semicolon of a source without faults comes what may follow a statement.** -/
theorem ReadsAll.tidy {ts : List Token} {ss : List Stmt} {n : Nat} (h : ReadsAll ts ss n) :
    Tidy ts ∧ followsStmt (peek ts) = true := by
  induction h with
  | nil => exact ⟨trivial, rfl⟩
  | cons hs _ ih => exact ⟨hs.tidy trivial ih.2 ih.1, hs.stmt_head.1⟩

/-! ### Tokens with semicolons left out -/

/-- Nothing in front of the tokens goes on with the first of them. -/
def Apart (ts : List Token) : Prop :=
  followsStmt (peek ts) = true ∧ peek ts ≠ .lparen ∧ peek ts ≠ .minus

/-- What stands apart ends the expression before it, and is neither `tonces` nor a semicolon. -/
theorem Apart.kind {ts : List Token} (h : Apart ts) :
    Power.ofKind (peek ts) ≤ Power.lowest ∧ peek ts ≠ .kwElse ∧ peek ts ≠ .semicolon := by
  obtain ⟨hf, hl, hm⟩ := h
  generalize peek ts = k at hf hl hm
  cases k <;>
    first | decide | exact absurd hf (by decide) | exact absurd rfl hl | exact absurd rfl hm

/-- The second list is the first one without some of its semicolons.  None is left out behind a
    return, nor in front of a token that what stands before it could go on with. -/
inductive Thinner : List Token → List Token → Prop
  | nil : Thinner [] []
  /-- A token is kept; behind a return, what comes next stays the same, as it says where the return
      ends. -/
  | cons {t ts us} (h : Thinner ts us) (hr : t.kind = .kwReturn → peek us = peek ts) :
      Thinner (t :: ts) (t :: us)
  /-- A semicolon is left out where what comes next cannot go on with what stands in front of it. -/
  | drop {t ts us} (h : Thinner ts us) (ht : t.kind = .semicolon) (hus : Apart us) :
      Thinner (t :: ts) us

namespace Thinner

variable {t : Token} {ts us : List Token} {k : Token.Kind}

theorem refl (ts : List Token) : Thinner ts ts := by
  induction ts with
  | nil => exact .nil
  | cons t ts ih => exact ih.cons fun _ => rfl

/-- One semicolon is left out. -/
theorem append_cons (ht : t.kind = .semicolon) (hus : Apart us)
    (hlast : ∀ u ∈ ts.getLast?, u.kind ≠ .kwReturn) : Thinner (ts ++ t :: us) (ts ++ us) := by
  induction ts with
  | nil => exact .drop (.refl us) ht hus
  | cons u ts ih =>
    cases ts with
    | nil => exact .cons (.drop (.refl us) ht hus) fun hu => absurd hu (hlast u rfl)
    | cons v ts =>
      exact .cons (ih fun w hw => hlast w (by rwa [List.getLast?_cons_cons])) fun _ => rfl

/-- A token of another kind is still there. -/
theorem tail (h : Thinner (t :: ts) us) (ht : t.kind = k) (hk : k ≠ .semicolon) :
    ∃ us', us = t :: us' ∧ Thinner ts us' ∧ (k = .kwReturn → peek us' = peek ts) := by
  cases h with
  | cons h hr => exact ⟨_, rfl, h, fun hret => hr (ht.trans hret)⟩
  | drop h hs => exact absurd (ht.symm.trans hs) hk

/-- The next token is the same, or nothing goes on with it. -/
theorem peek_cases (h : Thinner ts us) : peek us = peek ts ∨ Apart us := by
  cases h with
  | nil | cons => exact .inl rfl
  | drop _ _ hus => exact .inr hus

/-- Where an expression ends, it ends in the thinner list too. -/
theorem stops {power : Power} (h : Thinner ts us) (hp : Power.lowest ≤ power)
    (hs : Stops power ts) : Stops power us := by
  cases h with
  | nil | cons => exact hs
  | drop _ _ hus =>
    cases us with
    | nil => simp [Stops]
    | cons u us =>
      rintro v ⟨⟩
      exact Nat.le_trans hus.kind.1 hp

/-- Leaving semicolons out brings no `tonces` forward. -/
theorem peek_ne_else (h : Thinner ts us) (he : peek ts ≠ .kwElse) : peek us ≠ .kwElse := by
  rcases h.peek_cases with heq | hus
  · rwa [heq]
  · exact hus.kind.2.1

/-- An optional semicolon may be left out on either side of `Parser.skipSemicolon`. -/
theorem skipSemicolon (h : Thinner ts us) :
    Thinner (Parser.skipSemicolon ts) (Parser.skipSemicolon us) := by
  cases h with
  | nil => exact .nil
  | @cons t ts us h hr =>
    rw [Parser.skipSemicolon, Parser.skipSemicolon]
    split
    · exact h
    · exact h.cons hr
  | @drop t ts us h ht hus =>
    -- What comes behind the one that is left out is no semicolon itself.
    have hsame : Parser.skipSemicolon us = us := by
      cases us with
      | nil => rfl
      | cons u us => exact if_neg hus.kind.2.2
    rw [hsame, Parser.skipSemicolon, if_pos ht]
    exact h

/-- Names are read the same, since no semicolon stands between them. -/
theorem names {names : List Ident} {rest : List Token} (h : Thinner ts us)
    (hn : ReadsNames ts names rest) : ∃ rest', Thinner rest rest' ∧ ReadsNames us names rest' := by
  induction hn generalizing us with
  | close hk =>
    obtain ⟨us, rfl, h, -⟩ := h.tail hk (by simp)
    exact ⟨us, h, .close hk⟩
  | next hk hu _ ih =>
    obtain ⟨us, rfl, h, -⟩ := h.tail hk (by simp)
    obtain ⟨us, rfl, h, -⟩ := h.tail hu (by simp)
    obtain ⟨rest, hrest, hnames⟩ := ih h
    exact ⟨rest, hrest, .next hk hu hnames⟩

/-- Parameters are read the same, with their parentheses. -/
theorem params {names : List Ident} {rest : List Token} (h : Thinner ts us)
    (hps : ReadsParams ts names rest) :
    ∃ rest', Thinner rest rest' ∧ ReadsParams us names rest' := by
  cases hps with
  | close hk =>
    obtain ⟨us, rfl, h, -⟩ := h.tail hk (by simp)
    exact ⟨us, h, .close hk⟩
  | first hk hnames =>
    obtain ⟨us, rfl, h, -⟩ := h.tail hk (by simp)
    obtain ⟨rest, hrest, hnames⟩ := h.names hnames
    exact ⟨rest, hrest, .first hk hnames⟩

end Thinner

/-! ### Reading does not depend on the semicolons -/

/-- The call reads the same from a thinner list, and leaves a thinner one. -/
def Task.Thinned : (k : Task) → k.Result → List Token → Nat → Prop
  | .expr loops power ts, e, rest, n => ∀ {us}, Thinner ts us →
    ∃ rest', Thinner rest rest' ∧ Reads (.expr loops power us) e rest' n
  | .operand loops t ts, e, rest, n => ∀ {us}, Thinner ts us →
    ∃ rest', Thinner rest rest' ∧ Reads (.operand loops t us) e rest' n
  | .operators loops power left ts, e, rest, n => ∀ {us}, Thinner ts us →
    ∃ rest', Thinner rest rest' ∧ Reads (.operators loops power left us) e rest' n
  | .args loops ts, es, rest, n => ∀ {us}, Thinner ts us →
    ∃ rest', Thinner rest rest' ∧ Reads (.args loops us) es rest' n
  | .moreArgs loops ts, es, rest, n => ∀ {us}, Thinner ts us →
    ∃ rest', Thinner rest rest' ∧ Reads (.moreArgs loops us) es rest' n
  | .condition loops ts, c, rest, n => ∀ {us}, Thinner ts us →
    ∃ rest', Thinner rest rest' ∧ Reads (.condition loops us) c rest' n
  | .choice loops t c ts, e, rest, n => ∀ {us}, Thinner ts us →
    ∃ rest', Thinner rest rest' ∧ Reads (.choice loops t c us) e rest' n
  | .block loops ts, b, rest, n => ∀ {us}, Thinner ts us →
    ∃ rest', Thinner rest rest' ∧ Reads (.block loops us) b rest' n
  | .body loops ts, ss, rest, n => ∀ {us}, Thinner ts us →
    ∃ rest', Thinner rest rest' ∧ Reads (.body loops us) ss rest' n
  | .stmt loops t ts, s, rest, n => ∀ {us}, Thinner ts us →
    (t.kind = .kwReturn → peek us = peek ts) →
    ∃ rest', Thinner rest rest' ∧ Reads (.stmt loops t us) s rest' n

/-- **What is read does not depend on the semicolons that are left out.**  By induction on the
    reading.  Where a semicolon is left out, what comes next cannot be taken for a part of what
    stands in front of it. -/
theorem Reads.thinned {k : Task} {v : k.Result} {rest : List Token} {n : Nat} (h : Reads k v rest n)
    (hp : k.Powered) : k.Thinned v rest n := by
  -- A token that a rule asks for is no semicolon, so it is there in both lists.  As before, a rule
  -- with several parts is applied before it is compared with the goal.
  induction h with
  | expr hs _ _ ihl ihw =>
    intro us h
    obtain ⟨us, rfl, h, -⟩ := h.tail rfl (by rintro hk; simp [hk, startsExpr] at hs)
    obtain ⟨mid, hmid, hl⟩ := ihl trivial h
    obtain ⟨rest, hrest, hw⟩ := ihw hp hmid
    have hread := Reads.expr hs hl hw
    exact ⟨rest, hrest, hread⟩
  | leaf hleaf => exact fun h => ⟨_, h, .leaf hleaf⟩
  | unary hk _ ih =>
    intro us h
    obtain ⟨rest, hrest, he⟩ := ih lowest_le_unary h
    exact ⟨rest, hrest, .unary hk he⟩
  | group hk hu _ ih =>
    intro us h
    obtain ⟨rest, hrest, he⟩ := ih (Nat.le_refl _) h
    obtain ⟨rest, rfl, hrest, -⟩ := hrest.tail hu (by simp)
    exact ⟨rest, hrest, .group hk hu he⟩
  | choose hk _ _ ihc ihw =>
    intro us h
    obtain ⟨mid, hmid, hc⟩ := ihc trivial h
    obtain ⟨rest, hrest, hw⟩ := ihw trivial hmid
    have hread := Reads.choose hk hc hw
    exact ⟨rest, hrest, hread⟩
  | loop hk _ _ ihc ihb =>
    intro us h
    obtain ⟨mid, hmid, hc⟩ := ihc trivial h
    obtain ⟨rest, hrest, hb⟩ := ihb trivial hmid
    have hread := Reads.loop hk hc hb
    exact ⟨rest, hrest, hread⟩
  | @fn loops _ _ _ _ _ _ _ _ hk hu hps _ ihb =>
    intro us h
    obtain ⟨us, rfl, h, -⟩ := h.tail hu (by simp)
    obtain ⟨mid, hmid, hps⟩ := h.params (readsParams_of_params hps)
    obtain ⟨rest, hrest, hb⟩ := ihb trivial hmid
    have hread := @Reads.fn loops _ _ _ _ _ _ _ _ hk hu hps.params hb
    exact ⟨rest, hrest, hread⟩
  | stop hs => exact fun h => ⟨_, h, .stop (h.stops hp hs)⟩
  | call hlt hk _ _ iha ihw =>
    intro us h
    obtain ⟨us, rfl, h, -⟩ := h.tail hk (by simp)
    obtain ⟨mid, hmid, ha⟩ := iha trivial h
    obtain ⟨rest, hrest, hw⟩ := ihw hp hmid
    have hread := Reads.call hlt hk ha hw
    exact ⟨rest, hrest, hread⟩
  | binary hlt hk _ _ ihr ihw =>
    intro us h
    obtain ⟨us, rfl, h, -⟩ := h.tail rfl (ne_semicolon_of_lt hp hlt)
    obtain ⟨mid, hmid, hr⟩ := ihr (lowest_le_ofKind _) h
    obtain ⟨rest, hrest, hw⟩ := ihw hp hmid
    have hread := Reads.binary hlt hk hr hw
    exact ⟨rest, hrest, hread⟩
  | noArgs hk =>
    intro us h
    obtain ⟨us, rfl, h, -⟩ := h.tail hk (by simp)
    exact ⟨us, h, .noArgs hk⟩
  | someArgs _ _ ihe ihes =>
    intro us h
    obtain ⟨mid, hmid, he⟩ := ihe (Nat.le_refl _) h
    obtain ⟨rest, hrest, hes⟩ := ihes trivial hmid
    exact ⟨rest, hrest, .someArgs he hes⟩
  | lastArg hk =>
    intro us h
    obtain ⟨us, rfl, h, -⟩ := h.tail hk (by simp)
    exact ⟨us, h, .lastArg hk⟩
  | nextArg hk _ _ ihe ihes =>
    intro us h
    obtain ⟨us, rfl, h, -⟩ := h.tail hk (by simp)
    obtain ⟨mid, hmid, he⟩ := ihe (Nat.le_refl _) h
    obtain ⟨rest, hrest, hes⟩ := ihes trivial hmid
    exact ⟨rest, hrest, .nextArg hk he hes⟩
  | condition hk hu _ ih =>
    intro us h
    obtain ⟨us, rfl, h, -⟩ := h.tail hk (by simp)
    obtain ⟨rest, hrest, he⟩ := ih (Nat.le_refl _) h
    obtain ⟨rest, rfl, hrest, -⟩ := hrest.tail hu (by simp)
    exact ⟨rest, hrest, .condition hk hu he⟩
  | oneWay _ hr iha =>
    intro us h
    obtain ⟨rest, hrest, ha⟩ := iha trivial h
    exact ⟨rest, hrest, .oneWay ha (hrest.peek_ne_else hr)⟩
  | @twoWays _ t c _ _ _ _ _ _ _ _ hu _ _ iha ihb =>
    intro us h
    obtain ⟨mid, hmid, ha⟩ := iha trivial h
    obtain ⟨mid, rfl, hmid, -⟩ := hmid.tail hu (by simp)
    obtain ⟨rest, hrest, hb⟩ := ihb trivial hmid
    have hread := @Reads.twoWays _ t c _ _ _ _ _ _ _ _ hu ha hb
    exact ⟨rest, hrest, hread⟩
  | block hk _ ih =>
    intro us h
    obtain ⟨us, rfl, h, -⟩ := h.tail hk (by simp)
    obtain ⟨rest, hrest, hb⟩ := ih trivial h
    exact ⟨rest, hrest, .block hk hb⟩
  | close hk =>
    intro us h
    obtain ⟨us, rfl, h, -⟩ := h.tail hk (by simp)
    exact ⟨us, h, .close hk⟩
  | next hs _ ihs ihss =>
    intro us h
    obtain ⟨us, rfl, h, hr⟩ := h.tail rfl hs.stmt_head.2
    obtain ⟨mid, hmid, hs⟩ := ihs trivial h hr
    obtain ⟨rest, hrest, hss⟩ := ihss trivial hmid
    have hread := Reads.next hs hss
    exact ⟨rest, hrest, hread⟩
  | bind hk hx ha _ ih =>
    intro us h _
    obtain ⟨us, rfl, h, -⟩ := h.tail hx (by simp)
    obtain ⟨us, rfl, h, -⟩ := h.tail ha (by simp)
    obtain ⟨rest, hrest, he⟩ := ih (Nat.le_refl _) h
    exact ⟨_, hrest.skipSemicolon, .bind hk hx ha he⟩
  | bareReturn hk hr =>
    intro us h hret
    exact ⟨_, h.skipSemicolon, .bareReturn hk (by rwa [hret hk])⟩
  | valueReturn hk _ ih =>
    intro us h _
    obtain ⟨rest, hrest, he⟩ := ih (Nat.le_refl _) h
    exact ⟨_, hrest.skipSemicolon, .valueReturn hk he⟩
  | brk hk => exact fun h _ => ⟨_, h.skipSemicolon, .brk hk⟩
  | exprStmt _ ih =>
    intro us h hret
    obtain ⟨rest, hrest, he⟩ := ih (Nat.le_refl _) (h.cons hret)
    exact ⟨_, hrest.skipSemicolon, .exprStmt he⟩

/-- **Statements are read the same from a thinner list**, one after the other. -/
theorem ReadsAll.thinned {ts us : List Token} {ss : List Stmt} {n : Nat} (h : ReadsAll ts ss n)
    (hus : Thinner ts us) : ReadsAll us ss n := by
  induction h generalizing us with
  | nil =>
    cases hus
    exact .nil
  | cons hs _ ih =>
    obtain ⟨us, rfl, hus, hr⟩ := hus.tail rfl hs.stmt_head.2
    obtain ⟨rest, hrest, hs⟩ := hs.thinned trivial hus hr
    exact .cons hs (ih hrest)

end Parser

/-! ### The place of a token in its source -/

namespace Token

/-- The first token of a list was cut from the front of the source. -/
theorem next?_of_tokenize {source : List Char} {t : Token} {ts : List Token}
    (h : tokenize source = t :: ts) :
    ∃ rest, next? source = some (t, rest) ∧ tokenize rest = ts := by
  cases hn : next? source with
  | none =>
    rw [tokenize_of_none hn] at h
    exact absurd h (by simp)
  | some p =>
    obtain ⟨u, rest⟩ := p
    rw [tokenize_of_next hn] at h
    obtain ⟨rfl, hrest⟩ := List.cons.inj h
    exact ⟨rest, rfl, hrest⟩

/-- Only the last token can be a string that is left open. -/
theorem not_unclosed_of_tokenize {source : List Char} {t : Token} {ts us : List Token}
    (h : tokenize source = ts ++ t :: us) : ∀ u ∈ ts, ¬ u.Unclosed := by
  induction ts generalizing source with
  | nil => simp
  | cons v ts ih =>
    obtain ⟨rest, hn, hrest⟩ := next?_of_tokenize h
    refine List.forall_mem_cons.2 ⟨fun hv => ?_, ih hrest⟩
    rw [next?_unclosed hn hv, tokenize_of_none rfl] at hrest
    exact absurd hrest (by simp)

/-- A string is left open if no quote comes. -/
theorem dropWhile_of_unclosed {c : Char} {cs : List Char} (h : (scan c cs).1.Unclosed) :
    c = '"' ∧ cs.dropWhile (· ≠ '"') = [] := by
  obtain ⟨hkind, hhead⟩ := h
  have hc : c = '"' := by
    by_cases hc : c = '"'
    · exact hc
    · rw [head?_scan hc, Option.some.injEq] at hhead
      exact hhead
  subst hc
  have hscan : scan '"' cs = scanString cs := rfl
  rw [hscan, scanString] at hkind
  split at hkind
  · next hnil => exact ⟨rfl, hnil⟩
  · exact absurd hkind (by simp [ofChars])

/-- A token that ends in front of a delimiter further on is cut without the delimiter as well. -/
theorem scan_of_append {c b : Char} {cs before after : List Char} {t : Token} (hb : Delimits b)
    (h : scan c (cs ++ b :: after) = (t, before ++ b :: after)) : scan c cs = (t, before) := by
  by_cases hu : (scan c cs).1.Unclosed
  · -- The string would go on behind the delimiter.
    obtain ⟨rfl, hnil⟩ := dropWhile_of_unclosed hu
    have hscan : scan '"' (cs ++ b :: after) = scanString (cs ++ b :: after) := rfl
    have hle := length_dropWhile_le (· ≠ '"') (b :: after)
    rw [hscan, scanString, List.dropWhile_append, hnil, List.isEmpty_nil, if_pos rfl] at h
    split at h
    · simp at h
    · next heq =>
      have hrest := congrArg List.length (Prod.mk.inj h).2
      rw [heq, List.length_cons] at hle
      rw [List.length_append] at hrest
      omega
  · rw [scan_append hb hu, Prod.mk.injEq, List.append_cancel_right_eq] at h
    exact Prod.ext h.1 h.2

/-- What is in front of a semicolon in a source is cut into the tokens in front of it. -/
theorem exists_before_semicolon {source : List Char} {t : Token} {ts us : List Token}
    (h : tokenize source = ts ++ t :: us) (ht : t.kind = .semicolon) :
    ∃ before after, source = before ++ ';' :: after ∧ tokenize before = ts := by
  induction ts generalizing source with
  | nil =>
    have hmark : t = mark .semicolon := by
      have hmem : t ∈ tokenize source := by rw [h]; exact List.mem_cons_self
      exact (cut_of_mem_tokenize hmem).eq_mark ht (by decide)
    obtain ⟨rest, hn, -⟩ := next?_of_tokenize h
    obtain ⟨gap, c, cs, rfl, hgap, -, hscan⟩ := scan_of_next? hn
    have hc : ';' = c := by
      obtain ⟨w, hspelling, -⟩ := scan_spelling c cs
      have hsign : (mark .semicolon).spelling = [';'] := by decide
      have hcons : [';'] = c :: w := by rw [← hsign, ← hmark, ← hspelling, hscan]
      exact (List.cons.inj hcons).1
    have hblank : next? gap = none := by
      rw [next?, (takeWhile_of_all (List.all_eq_true.2 hgap)).2]
    exact ⟨gap, cs, by rw [hc], tokenize_of_none hblank⟩
  | cons u ts ih =>
    obtain ⟨rest, hn, hrest⟩ := next?_of_tokenize h
    obtain ⟨gap, c, cs, rfl, hgap, hc, hscan⟩ := scan_of_next? hn
    obtain ⟨before, after, rfl, hbefore⟩ := ih hrest
    -- The first token ends in front of what is in front of the semicolon.
    obtain ⟨w, hspelling, -⟩ := scan_spelling c cs
    have htext := (cutOff_scan c cs).text
    rw [hspelling, hscan, List.cons_append, List.cons.injEq] at htext
    obtain ⟨-, rfl⟩ := htext
    rw [← List.append_assoc] at hscan
    have hfirst : next? (gap ++ c :: (w ++ before)) = some (u, before) := by
      rw [next?_of_scan hgap hc, scan_of_append (by decide) hscan]
    refine ⟨gap ++ c :: (w ++ before), after, by simp, ?_⟩
    rw [tokenize_of_next hfirst, hbefore]

end Token

/-! ### Sources -/

/-- A semicolon is a token whatever comes next. -/
theorem tokenize_semicolon (after : List Char) :
    tokenize (';' :: after) = Token.mark .semicolon :: tokenize after :=
  tokenize_of_next rfl

/-- **Semicolons are optional where nothing goes on without them.**  In a source without faults, the
    text of a semicolon that does not stand behind a return, nor in front of an opening parenthesis
    or a minus sign, can be found, and with a space in its place the source reads the same. -/
theorem parse_without_semicolon {source : String} {t : Token} {ts us : List Token}
    (h : (parse source).diagnostics = []) (htokens : tokenize source.toList = ts ++ t :: us)
    (ht : t.kind = .semicolon) (hprev : ∀ u ∈ ts.getLast?, u.kind ≠ .kwReturn)
    (hnext : ∀ u ∈ us.head?, u.kind ≠ .lparen ∧ u.kind ≠ .minus) :
    (∃ before after, source = before ++ ";" ++ after ∧ tokenize before.toList = ts) ∧
    ∀ before after, source = before ++ ";" ++ after → tokenize before.toList = ts →
      parse (before ++ " " ++ after) = parse source := by
  refine ⟨?_, fun before after hsource hbefore => ?_⟩
  · obtain ⟨before, after, hsource, hbefore⟩ := Token.exists_before_semicolon htokens ht
    refine ⟨String.ofList before, String.ofList after, ?_, by rwa [String.toList_ofList]⟩
    rw [← String.toList_inj, hsource]
    simp
  · have hclosed : ∀ u ∈ tokenize before.toList, ¬ u.Unclosed := by
      rw [hbefore]
      exact Token.not_unclosed_of_tokenize htokens
    have hus : us = tokenize after.toList := by
      have hcut := @tokenize_append_of_delimits _ after.toList ';' (by decide) hclosed
      rw [hbefore, tokenize_semicolon] at hcut
      have hsame : source.toList = before.toList ++ ';' :: after.toList := by simp [hsource]
      rw [← hsame, htokens] at hcut
      exact (List.cons.inj (List.append_cancel_left hcut)).2
    have hspaced : tokenize (before ++ " " ++ after).toList = ts ++ us := by
      have hcut := @tokenize_append _ after.toList ' ' (by decide) hclosed
      rw [hbefore, ← hus] at hcut
      rw [← hcut]
      simp
    have hread := readsAll_of_parse h
    rw [htokens] at hread
    -- What comes behind the semicolon follows a statement.
    have hapart : Parser.Apart us := by
      refine ⟨hread.tidy.1.of_append.1 ht, ?_⟩
      cases us with
      | nil => decide
      | cons u us => exact hnext u rfl
    have hthinned := hread.thinned (.append_cons ht hapart hprev)
    rw [parse, parse, hspaced, htokens, parseTokens_eq_of_readsAll hthinned,
      parseTokens_eq_of_readsAll hread]

/-- A choice without an alternative ends a statement in front of a name. -/
theorem parse_without_semicolon_choice :
    parse "mientras (a) \x7b si (b) \x7b termina \x7d  c; \x7d" =
      parse "mientras (a) \x7b si (b) \x7b termina \x7d; c; \x7d" := by
  have h : (parse "mientras (a) \x7b si (b) \x7b termina \x7d; c; \x7d").diagnostics = [] := by
    decide +kernel
  have htokens : tokenize "mientras (a) \x7b si (b) \x7b termina \x7d; c; \x7d".toList =
      tokenize "mientras (a) \x7b si (b) \x7b termina \x7d".toList ++
        Token.mark .semicolon :: tokenize " c; \x7d".toList := by decide +kernel
  have hplaces := (parse_without_semicolon h htokens rfl (by decide +kernel) (by decide +kernel)).2
  exact hplaces "mientras (a) \x7b si (b) \x7b termina \x7d" " c; \x7d" rfl rfl

-- Without the semicolon the second statement is the argument of a call, an operand or a value.
example : ∀ p ∈ [("a; (b)", "a  (b)"), ("a; -b", "a  -b"), ("devuelve; a", "devuelve  a")],
    (parse p.1).program.stmts.length = 2 ∧ (parse p.2).program.stmts.length = 1 := by decide +kernel

end Incognita
