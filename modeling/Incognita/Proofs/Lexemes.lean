import Incognita.Proofs.Spellings

namespace Incognita

open Text

/-!
# Token — sources as lexemes

A source is cut into tokens with blanks between them.  Nothing of it is lost, and no token could
have been longer.

* `Lexeme`, `Lexeme.CutFrom` — a token with the text that it was cut from and the blanks in front of
  it, in front of what follows;
* `Lexed` — a source as lexemes one behind the other;
* `Token.next`, `Token.calls` — what one call and what many calls of the lexer give;
* `calls_lexed` — what the calls give are the tokens of such lexemes, and then end markers.
-/

/-! ### Lexemes in front of a text -/

open Token (Spells isWord Reserved)

/-- A token with the text that it was cut from, and the blanks in front of that. -/
structure Lexeme where
  /-- The text in front of the token. -/
  gap : List Char
  /-- The text of the token. -/
  span : List Char
  token : Token

/-- The lexeme stands in front of `rest`, and its token is as long as it can be. -/
structure Lexeme.CutFrom (l : Lexeme) (rest : List Char) : Prop where
  /-- In front of the token there are only blanks. -/
  gap : ∀ c ∈ l.gap, isBlank c = true
  /-- Every token takes some text. -/
  span : l.span ≠ []
  /-- The literal is the text, and that of a string is the text without its two quotes. -/
  literal : l.token.kind ≠ .string → l.token.literal.toList = l.span
  /-- A string stands in its quotes and has none inside. -/
  string : l.token.kind = .string →
    l.span = '"' :: (l.token.literal.toList ++ ['"']) ∧ '"' ∉ l.token.literal.toList
  /-- A word does not go on, and it is reserved if all of it is in the table. -/
  word : isWord l.span = true →
    (∀ c ∈ rest.head?, isWordPart c = false) ∧ (l.token.kind.isKeyword = true ↔ Reserved l.span)
  /-- A number is made of digits and does not go on. -/
  int : l.token.kind = .int →
    l.span.all isDigit = true ∧ ∀ c ∈ rest.head?, isDigit c = false
  /-- A sign alone is not followed by what it makes a pair with. -/
  unpaired : ∀ c ∈ ['=', '!', '<', '>'], l.span = [c] → rest.head? ≠ some '='
  /-- The same for the signs that are doubled. -/
  twinless : ∀ c ∈ ['&', '|'], l.span = [c] → rest.head? ≠ some c
  /-- Where nothing spells a token, one character is taken, or all from a quote on if there is
      no further one. -/
  illegal : l.token.kind = .illegal → (∀ k cs, Spells k cs → ¬ cs <+: l.span ++ rest) ∧
    ((∃ c, l.span = [c]) ∨ ∃ cs, l.span = '"' :: cs ∧ '"' ∉ cs ∧ rest = [])
  /-- Any other token is spelled by the text, and nothing longer spells one. -/
  spells : l.token.kind ≠ .illegal → Spells l.token.kind l.span
  /-- Of all that spells a token in front of the text, the longest is taken. -/
  longest : ∀ k cs, Spells k cs → cs <+: l.span ++ rest → cs.length ≤ l.span.length

/-- The source is lexemes one behind the other, and blanks at its end. -/
inductive Lexed : List Char → List Lexeme → Prop
  /-- Behind the last token there are only blanks. -/
  | done {tail} (h : ∀ c ∈ tail, isBlank c = true) : Lexed tail []
  | next {l : Lexeme} {rest ls} (h : l.CutFrom rest) (hs : Lexed rest ls) :
      Lexed (l.gap ++ (l.span ++ rest)) (l :: ls)

/-- What is spelled by one character more than a text is not found in front of what follows it,
    if nothing longer than the text is. -/
theorem head?_ne_of_longest {span rest : List Char}
    (h : ∀ k cs, Spells k cs → cs <+: span ++ rest → cs.length ≤ span.length) {k : Token.Kind}
    {d : Char} (hs : Spells k (span ++ [d])) : rest.head? ≠ some d := by
  intro hd
  obtain ⟨rest', rfl⟩ : ∃ rest', rest = d :: rest' := List.head?_eq_some_iff.1 hd
  have hle := h k (span ++ [d]) hs ⟨rest', by simp⟩
  rw [List.length_append, List.length_singleton] at hle
  omega

/-- A token that is cut off with nothing longer to take is a lexeme in front of what it leaves. -/
theorem Token.CutOff.cutFrom {gap text rest : List Char} {t : Token}
    (hcut : CutOff text t rest) (hgap : ∀ c ∈ gap, isBlank c = true) (hne : t.spelling ≠ [])
    (hlongest : ∀ k cs, Spells k cs → cs <+: text →
      t.kind ≠ .illegal ∧ cs.length ≤ t.spelling.length) :
    Lexeme.CutFrom ⟨gap, t.spelling, t⟩ rest := by
  obtain ⟨rfl, hspells, hillegal⟩ := hcut
  have hspells_of : ∀ {k}, k ≠ .illegal → t.kind = k → Spells k t.spelling := by
    rintro k hk rfl
    exact hspells hk
  have hmax : ∀ k cs, Spells k cs → cs <+: t.spelling ++ rest →
      cs.length ≤ t.spelling.length := fun k cs hs hp => (hlongest k cs hs hp).2
  -- The second character of a pair would make a longer token.
  have hpair : ∀ {k : Token.Kind} {a d : Char}, k.isSign = true → k.text.toList = [a, d] →
      t.spelling = [a] → rest.head? ≠ some d := by
    intro k a d hk hpair hspan
    refine head?_ne_of_longest hmax (k := k) ?_
    rw [hspan, List.singleton_append, ← hpair]
    exact .sign hk
  exact {
    gap := hgap
    span := hne
    literal := fun hk => (if_neg hk).symm
    string := by
      intro hk
      obtain ⟨text, htext, hq⟩ := (hspells_of (by simp) hk).quoted
      have hspan : t.spelling = '"' :: (t.literal.toList ++ ['"']) := if_pos hk
      have heq := hspan.symm.trans htext
      rw [List.cons.injEq, List.append_left_inj] at heq
      exact ⟨hspan, heq.2 ▸ hq⟩
    word := by
      intro hw
      refine ⟨fun d hd => ?_, ?_⟩
      · rw [← Bool.not_eq_true]
        intro hpart
        obtain ⟨k, hs⟩ := Spells.snoc_word hw hpart
        exact head?_ne_of_longest hmax hs hd
      · have hlegal := (hlongest _ _ (.word hw) (List.prefix_append _ _)).1
        exact (hspells hlegal).isKeyword_iff hw
    int := by
      intro hk
      have hs := hspells_of (by simp) hk
      refine ⟨hs.all_isDigit.2, fun d hd => ?_⟩
      rw [← Bool.not_eq_true]
      intro hdigit
      exact head?_ne_of_longest hmax (hs.snoc_int hdigit) hd
    unpaired := by
      intro c hc hspan
      simp only [List.mem_cons, List.not_mem_nil, or_false] at hc
      rcases hc with rfl | rfl | rfl | rfl
      · exact hpair (k := .eq) rfl rfl hspan
      · exact hpair (k := .notEq) rfl rfl hspan
      · exact hpair (k := .lte) rfl rfl hspan
      · exact hpair (k := .gte) rfl rfl hspan
    twinless := by
      intro c hc hspan
      simp only [List.mem_cons, List.not_mem_nil, or_false] at hc
      rcases hc with rfl | rfl
      · exact hpair (k := .and) rfl rfl hspan
      · exact hpair (k := .or) rfl rfl hspan
    illegal := fun hk => ⟨fun k cs' hs hp => (hlongest k cs' hs hp).1 hk, hillegal hk⟩
    spells := hspells
    longest := hmax }

/-- **The token that starts with a character is a lexeme** in front of what it leaves.  The cases
    are those of `Token.scan`, which is tried in the order of the lexical rules. -/
theorem Lexeme.cutFrom_scan {gap : List Char} (hgap : ∀ c ∈ gap, isBlank c = true) (c : Char)
    (cs : List Char) :
    CutFrom ⟨gap, (Token.scan c cs).1.spelling, (Token.scan c cs).1⟩ (Token.scan c cs).2 := by
  have hcut := Token.cutOff_scan c cs
  refine hcut.cutFrom hgap ?_ fun k cs' hs hp => Token.longest_scan hs hp
  intro hnil
  -- The rest would be all of the text, but at least a character is taken.
  have hlen := Token.length_scan c cs
  have htext := hcut.text
  rw [hnil, List.nil_append] at htext
  rw [htext, List.length_cons] at hlen
  omega

/-! ### The calls of the lexer -/

namespace Token

/-- What one call of the lexer gives: the first token and what follows it, or an end marker when
    only blanks are left. -/
def next (source : List Char) : Token × List Char := (next? source).getD (eof, [])

/-- Where no token is left, `next` gives the end, and stays there. -/
theorem next_of_none {source : List Char} (h : next? source = none) : next source = (eof, []) := by
  rw [next, h]
  rfl

/-- Where one is left, `next` gives it and what is behind it. -/
theorem next_of_some {source : List Char} {p : Token × List Char} (h : next? source = some p) :
    next source = p := by
  rw [next, h]
  rfl

/-- What so many calls give, one after another. -/
def calls : Nat → List Char → List Token
  | 0, _ => []
  | n + 1, source => (next source).1 :: calls n (next source).2

/-- Behind the end every call gives an end marker. -/
theorem calls_of_none {source : List Char} (h : next? source = none) (n : Nat) :
    calls n source = List.replicate n eof := by
  induction n generalizing source with
  | zero => rfl
  | succ n ih =>
    rw [calls, next_of_none h, ih rfl, List.replicate_succ]

/-- The calls give the tokens of the source, and then end markers. -/
theorem calls_eq (source : List Char) (n : Nat) :
    calls ((tokenize source).length + n) source = tokenize source ++ List.replicate n eof := by
  fun_induction tokenize source with
  | case1 source hnone =>
    rw [List.length_nil, Nat.zero_add, List.nil_append]
    exact calls_of_none hnone n
  | case2 source t rest hnext ih =>
    rw [List.length_cons, Nat.add_right_comm, calls, next_of_some hnext, ih, List.cons_append]

end Token

/-! ### Whole sources -/

/-- The tokens of a source are those of lexemes that the source consists of. -/
theorem lexed_tokenize (source : List Char) :
    ∃ ls, Lexed source ls ∧ tokenize source = ls.map Lexeme.token := by
  fun_induction tokenize source with
  | case1 source hnone =>
    refine ⟨[], .done ?_, rfl⟩
    rw [Token.next?] at hnone
    split at hnone
    · next hblank =>
      have hsplit := List.takeWhile_append_dropWhile (p := isBlank) (l := source)
      rw [hblank, List.append_nil] at hsplit
      rw [← hsplit]
      exact List.all_eq_true.1 List.all_takeWhile
    · exact absurd hnone (by simp)
  | case2 source t rest hnext ih =>
    obtain ⟨ls, hlexed, htokens⟩ := ih
    rw [Token.next?] at hnext
    split at hnext
    · exact absurd hnext (by simp)
    · next c cs hdrop =>
      have hscan : Token.scan c cs = (t, rest) := Option.some.inj hnext
      have hgap : ∀ b ∈ source.takeWhile isBlank, isBlank b = true :=
        List.all_eq_true.1 List.all_takeWhile
      have hcut := Lexeme.cutFrom_scan hgap c cs
      have htext := (Token.cutOff_scan c cs).text
      rw [hscan] at hcut htext
      -- The source is the blanks, the text of the token, and the rest.
      have hsource : source.takeWhile isBlank ++ (t.spelling ++ rest) = source := by
        rw [htext, ← hdrop]
        exact List.takeWhile_append_dropWhile
      refine ⟨⟨source.takeWhile isBlank, t.spelling, t⟩ :: ls, ?_, by rw [htokens, List.map_cons]⟩
      have hnextLexed := Lexed.next hcut hlexed
      rwa [hsource] at hnextLexed

/-- No token of a source is an end marker. -/
theorem kind_ne_eof_of_mem_tokenize {source : List Char} {t : Token} (h : t ∈ tokenize source) :
    t.kind ≠ .eof := by
  obtain ⟨ls, hlexed, htokens⟩ := lexed_tokenize source
  rw [htokens, List.mem_map] at h
  obtain ⟨l, hl, rfl⟩ := h
  clear htokens
  induction hlexed with
  | done => simp at hl
  | next hcut _ ih =>
    rcases List.mem_cons.1 hl with rfl | hl
    · intro hk
      exact (hcut.spells (by simp [hk])).kind_ne.1 hk
    · exact ih hl

/-- **The lexer loses nothing and takes the longest match.**  Every source is lexemes one behind the
    other, with nothing but blanks between them and at its end, and each token is as long as it can
    be.  The calls of the lexer give the tokens of the lexemes in order, none of which is an end
    marker, and every call after them gives an end marker. -/
theorem calls_lexed (source : List Char) :
    ∃ ls : List Lexeme, Lexed source ls ∧ tokenize source = ls.map Lexeme.token ∧
      (∀ l ∈ ls, l.token.kind ≠ .eof) ∧
      ∀ n, Token.calls (ls.length + n) source =
        ls.map Lexeme.token ++ List.replicate n Token.eof := by
  obtain ⟨ls, hlexed, htokens⟩ := lexed_tokenize source
  refine ⟨ls, hlexed, htokens, ?_, fun n => ?_⟩
  · intro l hl
    exact kind_ne_eof_of_mem_tokenize (htokens ▸ List.mem_map_of_mem hl)
  · have hcalls := Token.calls_eq source n
    rwa [htokens, List.length_map] at hcalls

end Incognita
