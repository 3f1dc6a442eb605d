import Incognita.Proofs.Bounds
import Incognita.Proofs.Grammar.Derivation
import Incognita.Proofs.Reading.Exact
import Incognita.Proofs.Reading.Sound
import Incognita.Proofs.Spacing

namespace Incognita

open Text

/-!
# Parser — sources one behind the other

Reading looks one token ahead, so a statement may well go on behind the end of a source when
another source is put there.  It does not when a semicolon is the last token: nothing but the end
of a statement takes a semicolon, so whatever is read before it has something in front of it to
stop at, and that is the same with more tokens behind it.

* `Token.scan_unclosed` — a string without its closing quote takes the rest of its source;
* `Terminated` — the last token is a semicolon;
* `Parser.Reads.seamless` — readings up to a last semicolon are the same in front of more tokens;
* `Parser.ReadsAll.program_append` — the statements of two token lists, one behind the other;
* `parse_append` — the statements of two sources with a line break between them, and `parse_joined`,
  those of any number of sources.
-/

/-! ### The tokens of joined sources -/

namespace Token

/-- Every token but a string starts with the character that it is found at. -/
theorem head?_scan {c : Char} (hc : c ≠ '"') (rest : List Char) :
    (scan c rest).1.literal.toList.head? = some c := by
  rw [scan]
  split
  · simp [ofChars]
  · split
    · next p _ =>
      cases rest with
      | nil => simp [scanPair, ofChars]
      | cons d rest =>
        simp only [scanPair]
        split <;> simp [ofChars]
    · rw [if_neg hc]
      split
      · simp [scanNumber, ofChars]
      · split <;> simp [scanWord, ofChars]

/-- A string without its closing quote takes everything up to the end. -/
theorem scan_unclosed {c : Char} {rest : List Char} (h : (scan c rest).1.Unclosed) :
    (scan c rest).2 = [] := by
  by_cases hc : c = '"'
  · subst hc
    have hscan : scan '"' rest = scanString rest := rfl
    rw [hscan, scanString] at h ⊢
    split
    · rfl
    · next after heq =>
      -- With its closing quote it would be a string.
      rw [heq] at h
      exact absurd h.1 (by simp [ofChars])
  · have hhead := h.2
    rw [head?_scan hc, Option.some.injEq] at hhead
    exact absurd hhead hc

/-- A string without its closing quote is the last token: `scan_unclosed`, behind the blanks. -/
theorem next?_unclosed {source rest : List Char} {t : Token} (h : next? source = some (t, rest))
    (ht : t.Unclosed) : rest = [] := by
  obtain ⟨gap, c, cs, -, -, -, hscan⟩ := scan_of_next? h
  have hrest : (scan c cs).2 = [] := scan_unclosed (by rwa [hscan])
  rwa [hscan] at hrest

end Token

/-- The last token is a semicolon. -/
def Terminated (ts : List Token) : Prop := ∃ t ∈ ts.getLast?, t.kind = .semicolon

namespace Terminated

variable {t : Token} {ts : List Token}

/-- Without tokens there is no last one. -/
theorem ne_nil (h : Terminated ts) : ts ≠ [] := by
  rintro rfl
  obtain ⟨t, ht, -⟩ := h
  exact absurd ht (by simp)

/-- The last token is the last one of the tokens behind the first, if there are any. -/
theorem of_cons_cons {u : Token} (h : Terminated (t :: u :: ts)) : Terminated (u :: ts) := by
  rwa [Terminated, List.getLast?_cons_cons] at h

/-- A token of another kind cannot be the last one. -/
theorem tail {k : Token.Kind} (h : Terminated (t :: ts)) (ht : t.kind = k) (hk : k ≠ .semicolon) :
    Terminated ts := by
  cases ts with
  | nil =>
    obtain ⟨u, hu, hkind⟩ := h
    rw [List.getLast?_singleton, Option.mem_some] at hu
    rw [← hu, ht] at hkind
    exact absurd hkind hk
  | cons u ts => exact h.of_cons_cons

/-- In a source that ends with a semicolon every string has its closing quote. -/
theorem not_unclosed {source : List Char} (h : Terminated (tokenize source)) :
    ∀ t ∈ tokenize source, ¬ t.Unclosed := by
  fun_induction tokenize source with
  | case1 source _ => simp
  | case2 source t rest hn ih =>
    intro u hu
    have ht : ¬ t.Unclosed := by
      intro ht
      -- It would be the last token.
      rw [Token.next?_unclosed hn ht, tokenize_of_none rfl] at h
      exact (h.tail ht.1 (by simp)).ne_nil rfl
    rcases List.mem_cons.1 hu with rfl | hu
    · exact ht
    · refine ih ?_ u hu
      cases hts : tokenize rest with
      | nil =>
        rw [hts] at hu
        exact absurd hu (by simp)
      | cons v ts =>
        rw [hts] at h
        exact h.of_cons_cons

end Terminated

namespace Parser

/-! ### One token ahead -/

section

variable {ts more : List Token}

/-- The token that is looked at is the same in front of more tokens. -/
theorem peek_append (h : ts ≠ []) : peek (ts ++ more) = peek ts := by
  cases ts with
  | nil => exact absurd rfl h
  | cons t ts => rfl

/-- What stops an expression at a power, `Stops`, is its next token. -/
theorem stops_append {power : Power} (h : Stops power ts) (hts : ts ≠ []) :
    Stops power (ts ++ more) := by
  cases ts with
  | nil => exact absurd rfl hts
  | cons t ts => exact h

/-- Whether a semicolon is passed over is up to the next token as well. -/
theorem skipSemicolon_append (h : ts ≠ []) :
    skipSemicolon (ts ++ more) = skipSemicolon ts ++ more := by
  cases ts with
  | nil => exact absurd rfl h
  | cons t ts =>
    rw [List.cons_append, skipSemicolon, skipSemicolon]
    split <;> rfl

/-- Behind the semicolon of a statement there may be nothing left. -/
theorem terminated_skipSemicolon (h : Terminated ts) :
    skipSemicolon ts = [] ∨ Terminated (skipSemicolon ts) := by
  cases ts with
  | nil => exact .inl rfl
  | cons t ts =>
    rw [skipSemicolon]
    split
    · cases ts with
      | nil => exact .inl rfl
      | cons u ts => exact .inr h.of_cons_cons
    · exact .inr h

/-! ### Parameters -/

/-- Parameters that are read are read in front of more tokens, too.  By induction on the commas
    between them. -/
theorem moreParams_append {names : List Ident} (h : (moreParams ts).value = some names) :
    moreParams (ts ++ more) =
      ⟨some names, (moreParams ts).rest ++ more, (moreParams ts).faults⟩ := by
  fun_induction moreParams ts generalizing names with
  -- A comma and a name behind it, and then more of them.
  | case5 t u ts ht hu ih =>
    simp only [Step.map, Option.map_eq_some_iff] at h
    obtain ⟨names', h', rfl⟩ := h
    rw [List.cons_append, List.cons_append, moreParams, if_pos ht, if_pos hu, ih h']
    simp [Step.map]
  | case3 t ht ht' =>
    obtain rfl : [] = names := by simpa using h
    cases more with
    | nil => simp [moreParams, ht']
    | cons u more => simp [moreParams, ht']
  | case7 t u ts ht ht' =>
    obtain rfl : [] = names := by simpa using h
    simp [moreParams, ht']
  | case1 | case2 | case4 | case6 | case8 => simp at h

/-- None of the tokens of parameters is a semicolon, so the last one is still to come. -/
theorem terminated_moreParams {names : List Ident} (h : (moreParams ts).value = some names)
    (ht : Terminated ts) : Terminated (moreParams ts).rest := by
  fun_induction moreParams ts generalizing names with
  | case5 t u ts hk hu ih =>
    simp only [Step.map, Option.map_eq_some_iff] at h
    obtain ⟨names', h', -⟩ := h
    exact ih h' ((ht.tail hk (by simp)).tail hu (by simp))
  | case3 t _ hk => exact ht.tail hk (by simp)
  | case7 t u ts _ hk => exact ht.tail hk (by simp)
  | case1 | case2 | case4 | case6 | case8 => simp at h

/-- The parameters of a function in front of more tokens. -/
theorem params_append {names : List Ident} {mid : List Token}
    (h : params ts = ⟨some names, mid, []⟩) (ht : Terminated ts) :
    Terminated mid ∧ params (ts ++ more) = ⟨some names, mid ++ more, []⟩ := by
  cases ts with
  | nil => exact absurd rfl ht.ne_nil
  | cons t ts =>
    rw [List.cons_append]
    rw [params] at h ⊢
    -- A closing parenthesis right away, a name, or neither.
    split at h
    · next hk =>
      obtain ⟨rfl, rfl⟩ : [] = names ∧ ts = mid := by simpa using h
      rw [if_pos hk]
      exact ⟨ht.tail hk (by simp), rfl⟩
    · next hn =>
      split at h
      · next hk =>
        rw [if_neg hn, if_pos hk]
        have hm : (moreParams ts).rest = mid := congrArg Step.rest h
        have hf : (moreParams ts).faults = [] := congrArg Step.faults h
        obtain ⟨names', hv, hnames⟩ := Option.map_eq_some_iff.1 (congrArg Step.value h)
        have hrest := terminated_moreParams hv (ht.tail hk (by simp))
        rw [hm] at hrest
        refine ⟨hrest, ?_⟩
        rw [moreParams_append hv, hm, hf]
        simp [Step.map, hnames]
      · exact absurd h (by simp)

end

/-! ### Readings in front of more tokens -/

/-- What the call reads up to a last semicolon it also reads in front of more tokens.  Only a
    statement can take that semicolon. -/
def Task.Seamless (more : List Token) : (k : Task) → k.Result → List Token → Nat → Prop
  | .expr loops power ts, e, rest, n =>
    Terminated rest ∧ Reads (.expr loops power (ts ++ more)) e (rest ++ more) n
  | .operand loops t ts, e, rest, n =>
    Terminated rest ∧ Reads (.operand loops t (ts ++ more)) e (rest ++ more) n
  | .operators loops power left ts, e, rest, n =>
    Terminated rest ∧ Reads (.operators loops power left (ts ++ more)) e (rest ++ more) n
  | .args loops ts, es, rest, n =>
    Terminated rest ∧ Reads (.args loops (ts ++ more)) es (rest ++ more) n
  | .moreArgs loops ts, es, rest, n =>
    Terminated rest ∧ Reads (.moreArgs loops (ts ++ more)) es (rest ++ more) n
  | .condition loops ts, c, rest, n =>
    Terminated rest ∧ Reads (.condition loops (ts ++ more)) c (rest ++ more) n
  | .choice loops t c ts, e, rest, n =>
    Terminated rest ∧ Reads (.choice loops t c (ts ++ more)) e (rest ++ more) n
  | .block loops ts, b, rest, n =>
    Terminated rest ∧ Reads (.block loops (ts ++ more)) b (rest ++ more) n
  | .body loops ts, ss, rest, n =>
    Terminated rest ∧ Reads (.body loops (ts ++ more)) ss (rest ++ more) n
  | .stmt loops t ts, s, rest, n =>
    (rest = [] ∨ Terminated rest) ∧ Reads (.stmt loops t (ts ++ more)) s (rest ++ more) n

/-- A semicolon is no expression by itself. -/
theorem leaf_ne_semicolon {t : Token} {e : Expr} (h : leaf? t = some e) :
    t.kind ≠ .semicolon := by
  intro hk
  simp [leaf?, hk] at h

/-- A token that binds tighter than some operator is no semicolon. -/
theorem ne_semicolon_of_lt {power : Power} {k : Token.Kind} (hl : Power.lowest ≤ power)
    (hp : power < Power.ofKind k) : k ≠ .semicolon := by
  rintro rfl
  exact absurd (Nat.lt_of_le_of_lt hl hp) (by decide)

/-- **Readings up to a last semicolon are the same in front of more tokens.**  Every part stops in
    front of the last semicolon or takes it, and none looks behind it. -/
theorem Reads.seamless {k : Task} {v : k.Result} {rest : List Token} {n : Nat}
    (h : Reads k v rest n) (more : List Token) (hp : k.Powered) (ht : Terminated k.tokens) :
    k.Seamless more v rest n := by
  -- Every part leaves the semicolon to what comes after it, so all parts have it in front of
  -- them.  A rule with several parts is applied before it is compared with the goal, whose types
  -- still name the tokens without those behind them.
  induction h with
  | expr hs _ _ ihl ihw =>
    obtain ⟨hmid, hl⟩ := ihl trivial ht
    obtain ⟨hrest, hw⟩ := ihw hp hmid
    have hread := Reads.expr hs hl hw
    exact ⟨hrest, hread⟩
  | leaf h => exact ⟨ht.tail rfl (leaf_ne_semicolon h), .leaf h⟩
  | @unary _ t ts _ _ _ hk _ ih =>
    have hts : Terminated ts := by rcases hk with hk | hk <;> exact ht.tail hk (by simp)
    obtain ⟨hrest, he⟩ := ih lowest_le_unary hts
    exact ⟨hrest, .unary hk he⟩
  | group hk hu _ ih =>
    obtain ⟨hrest, he⟩ := ih (Nat.le_refl _) (ht.tail hk (by simp))
    exact ⟨hrest.tail hu (by simp), .group hk hu he⟩
  | choose hk _ _ ihc ihw =>
    obtain ⟨hmid, hc⟩ := ihc trivial (ht.tail hk (by simp))
    obtain ⟨hrest, hw⟩ := ihw trivial hmid
    have hread := Reads.choose hk hc hw
    exact ⟨hrest, hread⟩
  | loop hk _ _ ihc ihb =>
    obtain ⟨hmid, hc⟩ := ihc trivial (ht.tail hk (by simp))
    obtain ⟨hrest, hb⟩ := ihb trivial hmid
    have hread := Reads.loop hk hc hb
    exact ⟨hrest, hread⟩
  | @fn loops _ _ _ _ _ _ _ _ hk hu hps _ ihb =>
    obtain ⟨hmid, hps'⟩ := params_append hps ((ht.tail hk (by simp)).tail hu (by simp))
    obtain ⟨hrest, hb⟩ := ihb trivial hmid
    have hread := @Reads.fn loops _ _ _ _ _ _ _ _ hk hu hps' hb
    exact ⟨hrest, hread⟩
  | stop h => exact ⟨ht, .stop (stops_append h ht.ne_nil)⟩
  | call hlt hk _ _ iha ihw =>
    obtain ⟨hmid, ha⟩ := iha trivial (ht.tail hk (by simp))
    obtain ⟨hrest, hw⟩ := ihw hp hmid
    have hread := Reads.call hlt hk ha hw
    exact ⟨hrest, hread⟩
  | binary hlt hk _ _ ihr ihw =>
    obtain ⟨hmid, hr⟩ := ihr (lowest_le_ofKind _) (ht.tail rfl (ne_semicolon_of_lt hp hlt))
    obtain ⟨hrest, hw⟩ := ihw hp hmid
    have hread := Reads.binary hlt hk hr hw
    exact ⟨hrest, hread⟩
  | noArgs hk => exact ⟨ht.tail hk (by simp), .noArgs hk⟩
  | someArgs _ _ ihe ihes =>
    obtain ⟨hmid, he⟩ := ihe (Nat.le_refl _) ht
    obtain ⟨hrest, hes⟩ := ihes trivial hmid
    exact ⟨hrest, .someArgs he hes⟩
  | lastArg hk => exact ⟨ht.tail hk (by simp), .lastArg hk⟩
  | nextArg hk _ _ ihe ihes =>
    obtain ⟨hmid, he⟩ := ihe (Nat.le_refl _) (ht.tail hk (by simp))
    obtain ⟨hrest, hes⟩ := ihes trivial hmid
    exact ⟨hrest, .nextArg hk he hes⟩
  | condition hk hu _ ih =>
    obtain ⟨hrest, he⟩ := ih (Nat.le_refl _) (ht.tail hk (by simp))
    exact ⟨hrest.tail hu (by simp), .condition hk hu he⟩
  | oneWay _ hr iha =>
    obtain ⟨hrest, ha⟩ := iha trivial ht
    exact ⟨hrest, .oneWay ha (by rwa [peek_append hrest.ne_nil])⟩
  | @twoWays _ t c _ _ _ _ _ _ _ _ hu _ _ iha ihb =>
    obtain ⟨hmid, ha⟩ := iha trivial ht
    obtain ⟨hrest, hb⟩ := ihb trivial (hmid.tail hu (by simp))
    have hread := @Reads.twoWays _ t c _ _ _ _ _ _ _ _ hu ha hb
    exact ⟨hrest, hread⟩
  | block hk _ ih =>
    obtain ⟨hrest, hb⟩ := ih trivial (ht.tail hk (by simp))
    exact ⟨hrest, .block hk hb⟩
  | close hk => exact ⟨ht.tail hk (by simp), .close hk⟩
  | next _ hss ihs ihss =>
    obtain ⟨hmid, hs⟩ := ihs trivial ht
    rcases hmid with rfl | hmid
    · -- Without a token there is no end of the block.
      cases hss
    · obtain ⟨hrest, hss⟩ := ihss trivial hmid
      have hread := Reads.next hs hss
      exact ⟨hrest, hread⟩
  | bind hk hx ha _ ih =>
    have hts := ((ht.tail hk (by simp)).tail hx (by simp)).tail ha (by simp)
    obtain ⟨hrest, he⟩ := ih (Nat.le_refl _) hts
    refine ⟨terminated_skipSemicolon hrest, ?_⟩
    rw [← skipSemicolon_append hrest.ne_nil]
    exact .bind hk hx ha he
  | bareReturn hk hr =>
    have hts := ht.tail hk (by simp)
    refine ⟨terminated_skipSemicolon hts, ?_⟩
    rw [← skipSemicolon_append hts.ne_nil]
    exact .bareReturn hk (by rwa [peek_append hts.ne_nil])
  | valueReturn hk _ ih =>
    obtain ⟨hrest, he⟩ := ih (Nat.le_refl _) (ht.tail hk (by simp))
    refine ⟨terminated_skipSemicolon hrest, ?_⟩
    rw [← skipSemicolon_append hrest.ne_nil]
    exact .valueReturn hk he
  | brk hk =>
    have hts := ht.tail hk (by simp)
    refine ⟨terminated_skipSemicolon hts, ?_⟩
    rw [← skipSemicolon_append hts.ne_nil]
    exact .brk hk
  | exprStmt _ ih =>
    obtain ⟨hrest, he⟩ := ih (Nat.le_refl _) ht
    refine ⟨terminated_skipSemicolon hrest, ?_⟩
    rw [← skipSemicolon_append hrest.ne_nil]
    exact .exprStmt he

/-- **The statements of two token lists, one behind the other**, if a semicolon is the last token
    of the first one.  The second one is read as it is by itself, whatever its faults. -/
theorem ReadsAll.program_append {ts more : List Token} {ss : List Stmt} {n fuel : Nat}
    {s : Step (List Stmt)} (h : ReadsAll ts ss n) (ht : Terminated ts)
    (hmore : program fuel more = some s) :
    ∃ bound, program bound (ts ++ more) =
      some ⟨ss ++ s.value, s.rest, List.replicate n .strayBreak ++ s.faults⟩ := by
  induction h with
  | nil => exact absurd rfl ht.ne_nil
  | @cons t ts st rest ss m n hst hss ih =>
    obtain ⟨hrest, hst'⟩ := hst.seamless more trivial ht
    -- The first statement ends where it ended, in front of the tokens that were behind it.
    obtain ⟨r, hr, -⟩ := Task.run_total _ (.stmt 0 t (ts ++ more)) (Nat.le_refl _)
    obtain rfl := hst'.gives _ _ hr
    obtain ⟨bound, hbound⟩ : ∃ bound, program bound (rest ++ more) =
        some ⟨ss ++ s.value, s.rest, List.replicate n .strayBreak ++ s.faults⟩ := by
      rcases hrest with rfl | hrest
      · -- That was the last statement of the first list.
        cases hss
        exact ⟨fuel, hmore⟩
      · exact ih hrest
    let need := (Task.stmt 0 t (ts ++ more)).need
    have hfirst : stmt (max need bound) 0 t (ts ++ more) = some _ :=
      Task.run_extends (Nat.le_max_left need bound) _ _ hr
    have hothers := program_extends (Nat.le_max_right need bound) _ _ hbound
    refine ⟨max need bound + 1, ?_⟩
    rw [List.cons_append, program, hfirst, Option.bind_eq_bind, Option.bind_some, hothers]
    simp [Step.after, Step.map, ← List.replicate_append_replicate]

end Parser

/-! ### Sources -/

/-- Tokens that are read without faults up to a last semicolon, in front of any others. -/
theorem parseTokens_append {ts more : List Token} {ss : List Stmt}
    (h : Parser.ReadsAll ts ss 0) (ht : Terminated ts) :
    parseTokens (ts ++ more) =
      ⟨⟨ss ++ (parseTokens more).program.stmts⟩, (parseTokens more).diagnostics⟩ := by
  obtain ⟨s, hs, -⟩ := Parser.program_total (Nat.le_refl (Parser.enough more.length))
  obtain ⟨bound, hbound⟩ := h.program_append ht hs
  rw [parseTokens_eq_of_program hbound, parseTokens_eq_of_program hs]
  rfl

/-- **Reading distributes over a line break behind a semicolon.**  A source that is read without
    faults and has a semicolon as its last token, with any other source on the next line, is read
    as the statements of the first one and those of the second one, with the faults of the second
    one. -/
theorem parse_append {first second : String} (hfirst : (parse first).diagnostics = [])
    (hend : Terminated (tokenize first.toList)) :
    parse (first ++ "\n" ++ second) =
      ⟨⟨(parse first).program.stmts ++ (parse second).program.stmts⟩,
        (parse second).diagnostics⟩ := by
  have hlist : (first ++ "\n" ++ second).toList = first.toList ++ '\n' :: second.toList := by simp
  have htokens : tokenize (first ++ "\n" ++ second).toList =
      tokenize first.toList ++ tokenize second.toList := by
    rw [hlist, tokenize_append (by decide) hend.not_unclosed]
  rw [parse, htokens]
  exact parseTokens_append (readsAll_of_parse hfirst) hend

/-- A loop that is left, in front of a closing parenthesis and a break: nothing of the loop is
    open any more, and both are reported. -/
theorem parse_append_leftLoop :
    (parse "mientras (a) \x7b termina; \x7d;").diagnostics = [] ∧
    (parse ("mientras (a) \x7b termina; \x7d;" ++ "\n" ++ ") termina")).diagnostics =
      [.noRule ")", .strayBreak] ∧
    (parse ("mientras (a) \x7b termina; \x7d;" ++ "\n" ++ ") termina")).program.stmts =
      (parse "mientras (a) \x7b termina; \x7d;").program.stmts ++
        (parse ") termina").program.stmts := by
  have hfirst : (parse "mientras (a) \x7b termina; \x7d;").diagnostics = [] := by decide +kernel
  have hend : Terminated (tokenize "mientras (a) \x7b termina; \x7d;".toList) :=
    ⟨⟨.semicolon, ";"⟩, by decide +kernel, rfl⟩
  have hsecond : (parse ") termina").diagnostics = [.noRule ")", .strayBreak] := by decide +kernel
  refine ⟨hfirst, ?_, ?_⟩
  · rw [parse_append hfirst hend, hsecond]
  · rw [parse_append hfirst hend]

/-- **Sources with line breaks between them are read as all their statements**, if each of them is
    read without faults and ends with a semicolon, the last one apart. -/
theorem parse_joined {first : List String} {last : String}
    (hfirst : ∀ source ∈ first,
      (parse source).diagnostics = [] ∧ Terminated (tokenize source.toList))
    (hlast : (parse last).diagnostics = []) :
    parse ("\n".intercalate (first ++ [last])) =
      ⟨⟨first.flatMap (fun source => (parse source).program.stmts) ++
        (parse last).program.stmts⟩, []⟩ := by
  induction first with
  | nil =>
    rw [List.nil_append, String.intercalate_singleton, List.flatMap_nil, List.nil_append, ← hlast]
  | cons source first ih =>
    obtain ⟨⟨hsource, hend⟩, hrest⟩ := List.forall_mem_cons.1 hfirst
    have hlist : ("\n".intercalate (source :: (first ++ [last]))).toList =
        source.toList ++ '\n' :: ("\n".intercalate (first ++ [last])).toList := by
      rw [String.intercalate_cons_of_ne_nil (by simp)]
      simp
    have hothers := ih hrest
    rw [parse] at hothers
    rw [List.cons_append, parse, hlist, tokenize_append (by decide) hend.not_unclosed,
      parseTokens_append (readsAll_of_parse hsource) hend, hothers, List.flatMap_cons,
      List.append_assoc]

end Incognita
