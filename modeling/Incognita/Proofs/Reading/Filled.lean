import Incognita.Proofs.Reading.Exact
import Incognita.Proofs.Rendering.Written
import Incognita.Proofs.Respacing

namespace Incognita

open Token (mark Spells)

/-!
# Parser — what is read is well formed

The trees that can be written out and read back are said by `Program.WellFormed`.  What is read from
a source without faults is one of them: every token in the tree comes from the source, so it is
spelled as its kind asks for, and the rules put each kind in its place.

* `Token.Cut` — what is known of a token that was cut from a source;
* `Parser.Reads.filled` — what is read from such tokens has them where they belong;
* `wellFormed_of_parse` — hence a source without faults gives a well-formed tree.
-/

namespace Token

/-! ### Tokens that were cut from a source -/

/-- The token is cut from its own spelling, and spelled as its kind is. -/
structure Cut (t : Token) : Prop where
  /-- It is cut again from its own spelling. -/
  lexes : t.Lexes
  /-- Its spelling is one of its kind, if it is a token of the language. -/
  spells : t.kind ≠ .illegal → Spells t.kind t.spelling

/-- Every token of a source is cut from it. -/
theorem cut_of_mem_tokenize {source : List Char} {t : Token} (h : t ∈ tokenize source) : t.Cut :=
  ⟨lexes_of_mem_tokenize h, spells_of_mem_tokenize h⟩

/-- A kind that has one spelling is spelled so. -/
theorem Spells.eq_text {k : Kind} {cs : List Char} (h : Spells k cs) (hk : k.text ≠ "") :
    cs = k.text.toList := by
  cases h with
  | sign => rfl
  | @keyword word _ hmem =>
    have htable : ∀ p ∈ keywords, p.2.text ≠ "" → p.1 = p.2.text := by decide
    exact congrArg String.toList (htable (word, k) hmem hk)
  | ident | int | string => exact absurd rfl hk

/-- A token that is no string is spelled by its literal. -/
theorem spelling_of_ne_string {t : Token} (h : t.kind ≠ .string) :
    t.spelling = t.literal.toList := if_neg h

namespace Cut

variable {t : Token} {k : Kind}

/-- A token that was cut is spelled as its kind is. -/
theorem spells_kind (h : t.Cut) (ht : t.kind = k) (hk : k ≠ .illegal) : Spells k t.spelling := by
  subst ht
  exact h.spells hk

/-- A token of a kind with one spelling is the mark of that kind. -/
theorem eq_mark (h : t.Cut) (ht : t.kind = k) (hk : k.text ≠ "") : t = mark k := by
  have hlegal : k ≠ .illegal := by
    rintro rfl
    exact hk rfl
  have hstring : t.kind ≠ .string := by
    rw [ht]
    rintro rfl
    exact hk rfl
  have htext := (h.spells_kind ht hlegal).eq_text hk
  rw [spelling_of_ne_string hstring, String.toList_inj] at htext
  obtain ⟨kind, literal⟩ := t
  subst ht
  exact congrArg _ htext

/-- The truth values are in the table of reserved words. -/
theorem mem_keywords (h : t.Cut) (ht : t.kind = .kwTrue ∨ t.kind = .kwFalse) :
    (t.literal, t.kind) ∈ keywords := by
  have hstring : t.kind ≠ .string := by rcases ht with ht | ht <;> simp [ht]
  have hspells : Spells t.kind t.literal.toList := by
    rw [← spelling_of_ne_string hstring]
    exact h.spells (by rcases ht with ht | ht <;> simp [ht])
  generalize hcs : t.literal.toList = cs at hspells
  rcases ht with ht | ht
  all_goals
    rw [ht] at hspells ⊢
    cases hspells with
    | sign hs => simp [Kind.isSign] at hs
    | keyword hmem =>
      rw [String.toList_inj] at hcs
      rwa [hcs]

/-- The text of a string has no quote in it. -/
theorem quote_not_mem (h : t.Cut) (ht : t.kind = .string) : '"' ∉ t.literal.toList := by
  obtain ⟨text, htext, hq⟩ := (h.spells_kind ht (by simp)).quoted
  rw [spelling, if_pos ht, List.cons.injEq, List.append_left_inj] at htext
  rwa [htext.2]

end Cut

end Token

/-- A name that was cut is an identifier with the right token. -/
theorem Ident.filled_ofToken {t : Token} (h : t.Cut) (ht : t.kind = .ident) :
    (Ident.ofToken t).Filled :=
  ⟨ht, h.lexes, rfl⟩

namespace Parser

/-! ### The tokens that a call leaves -/

/-- What a call has left to look at is the end of what it got. -/
theorem Task.remaining_suffix (k : Task) : k.remaining <:+ k.tokens := by
  cases k with
  | expr loops power ts => exact List.tail_suffix ts
  | operand loops t ts | stmt loops t ts => exact List.suffix_cons t ts
  | _ => exact List.suffix_refl _

/-- What holds of all tokens that a call gets holds of all tokens that it leaves. -/
theorem Reads.forall_rest {P : Token → Prop} {k : Task} {v : k.Result} {rest : List Token} {n : Nat}
    (h : Reads k v rest n) (hk : ∀ t ∈ k.tokens, P t) : ∀ t ∈ rest, P t :=
  fun t ht => hk t ((h.rest_suffix.trans k.remaining_suffix).mem ht)

/-! ### Names and leaves -/

/-- The names between commas are identifiers with the right tokens. -/
theorem ReadsNames.filled {ts rest : List Token} {names : List Ident}
    (h : ReadsNames ts names rest) (hc : ∀ t ∈ ts, t.Cut) : ∀ x ∈ names, x.Filled := by
  induction h with
  | close => simp
  | @next t u ts names rest _ hu _ ih =>
    obtain ⟨-, hcu, hcts⟩ : t.Cut ∧ u.Cut ∧ ∀ t ∈ ts, t.Cut := by simpa using hc
    exact List.forall_mem_cons.2 ⟨Ident.filled_ofToken hcu hu, ih hcts⟩

/-- So are the parameters of a function. -/
theorem ReadsParams.filled {ts rest : List Token} {names : List Ident}
    (h : ReadsParams ts names rest) (hc : ∀ t ∈ ts, t.Cut) : ∀ x ∈ names, x.Filled := by
  cases h with
  | close => simp
  | first hk h =>
    obtain ⟨hct, hcts⟩ := List.forall_mem_cons.1 hc
    exact List.forall_mem_cons.2 ⟨Ident.filled_ofToken hct hk, h.filled hcts⟩

/-- A token that is an expression by itself is the right one for it. -/
theorem leaf_filled {t : Token} {e : Expr} (h : leaf? t = some e) (hc : t.Cut) : e.Filled := by
  cases hk : t.kind <;> simp only [leaf?, hk, reduceCtorEq, Option.some.injEq] at h
  case ident =>
    subst h
    exact Ident.filled_ofToken hc hk
  case int =>
    -- An integer is an expression only with its value, which the digits have.
    obtain ⟨n, hn, rfl⟩ := Option.map_eq_some_iff.1 h
    exact ⟨hk, hc.lexes, n, rfl, hn⟩
  case string =>
    subst h
    refine ⟨?_, hc.quote_not_mem hk⟩
    rw [← hk]
  case kwTrue =>
    subst h
    exact ⟨hk, hc.mem_keywords (.inl hk)⟩
  case kwFalse =>
    subst h
    exact ⟨hk, hc.mem_keywords (.inr hk)⟩

/-! ### What is read -/

/-- What a call reads has the tokens that belong there, as far as what it got has them. -/
def Task.Fills : (k : Task) → k.Result → Prop
  | .expr .., e | .operand .., e => e.Filled
  | .operators _ _ left _, e => left.Filled → e.Filled
  | .choice _ t cond _, e => t = mark .kwIf → cond.Filled → e.Filled
  | .args .., es | .moreArgs .., es => ∀ es' ∈ es, Expr.FilledAll es'
  | .condition .., c => ∀ c' ∈ c, c'.Filled
  | .block .., b => b.Filled
  | .body .., ss => Stmt.FilledAll ss
  | .stmt .., s => ∀ s' ∈ s, s'.Filled

/-- **What is read from tokens of a source has them where they belong.**  Each token in a tree is
    the one at which its rule was applied, and that one was cut from the source. -/
theorem Reads.filled {k : Task} {v : k.Result} {rest : List Token} {n : Nat} (h : Reads k v rest n)
    (hp : k.Powered) (hc : ∀ t ∈ k.tokens, t.Cut) : k.Fills v := by
  -- The tokens that one part leaves are those that the next one gets.
  induction h with
  | expr _ hl _ ihl ihw => exact ihw hp (hl.forall_rest hc) (ihl trivial hc)
  | leaf h => exact leaf_filled h (hc _ List.mem_cons_self)
  | unary hk _ ih =>
    obtain ⟨hct, hcts⟩ := List.forall_mem_cons.1 hc
    refine ⟨?_, rfl, ih lowest_le_unary hcts⟩
    rcases hk with hk | hk
    · exact .inl (hct.eq_mark hk (by decide))
    · exact .inr (hct.eq_mark hk (by decide))
  | group _ _ _ ih => exact ih (Nat.le_refl _) (List.forall_mem_cons.1 hc).2
  | choose hk hcond _ ihc ihw =>
    obtain ⟨hct, hcts⟩ := List.forall_mem_cons.1 hc
    have hmark := hct.eq_mark hk (by decide)
    exact ihw trivial (hcond.forall_rest hcts) hmark (ihc trivial hcts _ rfl)
  | loop hk hcond _ ihc ihb =>
    obtain ⟨hct, hcts⟩ := List.forall_mem_cons.1 hc
    exact ⟨hct.eq_mark hk (by decide), ihc trivial hcts _ rfl,
      ihb trivial (hcond.forall_rest hcts)⟩
  | @fn _ t u ts names mid b rest _ hk _ hps _ ihb =>
    obtain ⟨hct, hcu, hcts⟩ : t.Cut ∧ u.Cut ∧ ∀ t ∈ ts, t.Cut := by simpa [Task.tokens] using hc
    have hmid : ∀ t ∈ mid, t.Cut := by
      have hsuffix := params_suffix ts
      rw [hps] at hsuffix
      exact fun t ht => hcts t (hsuffix.mem ht)
    have hnames : ∀ x ∈ names, x.Filled := (readsParams_of_params hps).filled hcts
    exact ⟨hct.eq_mark hk (by decide), Ident.forall_map_some.2 hnames, ihb trivial hmid⟩
  | stop => exact id
  | call _ hk ha _ iha ihw =>
    obtain ⟨hct, hcts⟩ := List.forall_mem_cons.1 hc
    intro hleft
    exact ihw hp (ha.forall_rest hcts) ⟨hct.eq_mark hk (by decide), hleft, iha trivial hcts _ rfl⟩
  | binary hlt hk hr _ ihr ihw =>
    obtain ⟨hct, hcts⟩ := List.forall_mem_cons.1 hc
    have hb := isBinary_of_lt hp hlt hk
    intro hleft
    refine ihw hp (hr.forall_rest hcts) ⟨?_, hb, rfl, hleft, ihr (lowest_le_ofKind _) hcts⟩
    exact hct.eq_mark rfl (Token.text_of_isBinary hb)
  | noArgs | lastArg => rintro es ⟨⟩; trivial
  | someArgs he _ ihe ihes =>
    rintro es ⟨⟩
    exact ⟨ihe (Nat.le_refl _) hc, ihes trivial (he.forall_rest hc) _ rfl⟩
  | nextArg _ he _ ihe ihes =>
    obtain ⟨-, hcts⟩ := List.forall_mem_cons.1 hc
    rintro es ⟨⟩
    exact ⟨ihe (Nat.le_refl _) hcts, ihes trivial (he.forall_rest hcts) _ rfl⟩
  | condition _ _ _ ih =>
    rintro c ⟨⟩
    exact ih (Nat.le_refl _) (List.forall_mem_cons.1 hc).2
  | oneWay _ _ iha => exact fun ht hcond => ⟨ht, hcond, iha trivial hc, trivial⟩
  | twoWays _ ha _ iha ihb =>
    obtain ⟨-, hmid⟩ := List.forall_mem_cons.1 (ha.forall_rest hc)
    exact fun ht hcond => ⟨ht, hcond, iha trivial hc, ihb trivial hmid⟩
  | block hk _ ih =>
    obtain ⟨hct, hcts⟩ := List.forall_mem_cons.1 hc
    exact ⟨hct.eq_mark hk (by decide), ih trivial hcts⟩
  | close => trivial
  | next hs _ ihs ihss => exact ⟨ihs trivial hc _ rfl, ihss trivial (hs.forall_rest hc)⟩
  | @bind _ t x a ts e _ _ hk hx _ _ ih =>
    obtain ⟨hct, hcx, -, hcts⟩ : t.Cut ∧ x.Cut ∧ a.Cut ∧ ∀ t ∈ ts, t.Cut := by
      simpa [Task.tokens] using hc
    rintro s ⟨⟩
    refine ⟨hct.eq_mark hk (by decide), ?_, ih (Nat.le_refl _) hcts⟩
    rintro y ⟨⟩
    exact Ident.filled_ofToken hcx hx
  | bareReturn hk =>
    rintro s ⟨⟩
    exact ⟨(List.forall_mem_cons.1 hc).1.eq_mark hk (by decide), trivial⟩
  | valueReturn hk _ ih =>
    obtain ⟨hct, hcts⟩ := List.forall_mem_cons.1 hc
    rintro s ⟨⟩
    exact ⟨hct.eq_mark hk (by decide), ih (Nat.le_refl _) hcts⟩
  | brk hk =>
    rintro s ⟨⟩
    exact (List.forall_mem_cons.1 hc).1.eq_mark hk (by decide)
  | exprStmt _ ih =>
    rintro s ⟨⟩
    exact ih (Nat.le_refl _) hc

/-- The statements of a source have the right tokens, if its tokens are cut from it. -/
theorem ReadsAll.filled {ts : List Token} {ss : List Stmt} {n : Nat} (h : ReadsAll ts ss n)
    (hc : ∀ t ∈ ts, t.Cut) : Stmt.FilledAll ss := by
  induction h with
  | nil => trivial
  | cons hs _ ih => exact ⟨hs.filled trivial hc _ rfl, ih (hs.forall_rest hc)⟩

end Parser

/-- **A source without faults gives a well-formed tree.** -/
theorem wellFormed_of_parse {source : String} (h : (parse source).diagnostics = []) :
    (parse source).program.WellFormed := by
  have hread := readsAll_of_parse h
  exact {
    complete := hread.complete
    breaks := hread.strayBreaks
    filled := hread.filled fun t ht => Token.cut_of_mem_tokenize ht }

end Incognita
