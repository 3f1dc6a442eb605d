import Incognita.Token.Lexer

namespace Incognita

open Text

/-!
# Token — blanks separate tokens

A token takes as many characters as it can, and a blank is where it has to stop, as are brackets
and separators.  Only a string without its closing quote goes on through them.

* `Token.Unclosed` — the token of a string without its closing quote;
* `Token.Delimits` — a character that no token goes on with;
* `Token.scan_append` — such a character behind a token changes nothing about it;
* `tokenize_append_of_delimits` — hence a source can be cut in front of such a character;
* `tokenize_append` — so the tokens of two sources with a blank between them are those of the one
  and those of the other;
* `Token.spelling`, `Token.spaced` — a token written out, and tokens with spaces between them;
* `Token.Lexes` — a token that is cut from its own spelling;
* `tokenize_spaced` — such tokens can be cut again from what they are written out to;
* `Token.mark` — the token of a kind that is always spelled the same, which is such a token.
-/

/-! ### Blanks are in no word -/

namespace Text

/-- What the ranges contain lies in one of them. -/
theorem Ranges.mem_of_contains {rs : Ranges} {n : Nat} (h : rs.contains n = true) :
    ∃ r ∈ rs, r.1 ≤ n ∧ n ≤ r.2 := by
  induction rs with
  | nil => simp at h
  | cons r rs ih =>
    rw [Ranges.contains_cons] at h
    split at h
    · exact absurd h (by simp)
    · next hlo =>
      split at h
      · next hhi => exact ⟨r, List.mem_cons_self, Nat.le_of_not_lt hlo, hhi⟩
      · obtain ⟨q, hq, hn⟩ := ih h
        exact ⟨q, List.mem_cons_of_mem r hq, hn⟩

/-- Ranges that do not meet contain no number in common. -/
theorem Ranges.not_contains {rs qs : Ranges} {n : Nat}
    (hd : ∀ r ∈ rs, ∀ q ∈ qs, r.2 < q.1 ∨ q.2 < r.1) (h : rs.contains n = true) :
    qs.contains n = false := by
  rw [← Bool.not_eq_true]
  intro hq
  obtain ⟨r, hr, hlo, hhi⟩ := mem_of_contains h
  obtain ⟨q, hq, hlo', hhi'⟩ := mem_of_contains hq
  rcases hd r hr q hq with hlt | hlt <;> omega

variable {b : Char}

theorem not_isLetter_of_isBlank (hb : isBlank b = true) : isLetter b = false :=
  Ranges.not_contains (by decide +kernel) hb

/-- The digits as a range, which no blank is in. -/
theorem not_isDigit_of_isBlank (hb : isBlank b = true) : isDigit b = false := by
  have h : Ranges.contains [(48, 57)] b.toNat = false :=
    Ranges.not_contains (by decide +kernel) hb
  rw [isDigit, Bool.and_eq_false_iff]
  simp only [decide_eq_false_iff_not, Char.le_def, UInt32.le_iff_toNat_le]
  simp only [Ranges.contains_cons] at h
  change ¬ 48 ≤ b.toNat ∨ ¬ b.toNat ≤ 57
  grind

theorem ne_of_isBlank {c : Char} (hb : isBlank b = true) (hc : isBlank c = false) : b ≠ c := by
  rintro rfl
  simp [hb] at hc

theorem not_isWordPart_of_isBlank (hb : isBlank b = true) : isWordPart b = false := by
  have hu : b ≠ '_' := ne_of_isBlank hb (by decide)
  simp [isWordPart, isWordStart, not_isLetter_of_isBlank hb, not_isDigit_of_isBlank hb, hu]

end Text

/-! ### A delimiter ends a token -/

namespace Token

/-- The token of a string without its closing quote. -/
def Unclosed (t : Token) : Prop := t.kind = .illegal ∧ t.literal.toList.head? = some '"'

/-- No token goes on with the character, a string apart. -/
def Delimits (b : Char) : Prop := isWordPart b = false ∧ b ≠ '=' ∧ b ≠ '&' ∧ b ≠ '|'

instance (b : Char) : Decidable (Delimits b) := inferInstanceAs (Decidable (_ ∧ _))

variable {b c : Char} {p : Char → Bool} {rest more : List Char}

/-- A blank ends every token, a string apart. -/
theorem delimits_of_isBlank (hb : isBlank b = true) : Delimits b :=
  ⟨not_isWordPart_of_isBlank hb, ne_of_isBlank hb (by decide), ne_of_isBlank hb (by decide),
    ne_of_isBlank hb (by decide)⟩

/-- What ends every token is no digit. -/
theorem Delimits.not_isDigit (hb : Delimits b) : isDigit b = false := by
  have hpart := hb.1
  rw [isWordPart, Bool.or_eq_false_iff] at hpart
  exact hpart.2

/-- What a delimiter stops is taken from the text before it. -/
theorem takeWhile_append_delimiter (hb : p b = false) :
    (rest ++ b :: more).takeWhile p = rest.takeWhile p := by
  rw [List.takeWhile_append]
  split
  · next h =>
    rw [List.takeWhile_cons_of_neg (by simp [hb]), List.append_nil]
    exact (List.IsPrefix.eq_of_length (List.takeWhile_prefix p) h).symm
  · rfl

/-- And so it is dropped from there. -/
theorem dropWhile_append_delimiter (hb : p b = false) :
    (rest ++ b :: more).dropWhile p = rest.dropWhile p ++ b :: more := by
  rw [List.dropWhile_append]
  split
  · next h =>
    rw [List.isEmpty_iff.1 h, List.dropWhile_cons_of_neg (by simp [hb]), List.nil_append]
  · rfl

/-- A sign pairs up with what follows it, and that is the delimiter only at the end of the text. -/
theorem scanPair_append {q : Pairing} (hb : b ≠ q.second) :
    scanPair c q (rest ++ b :: more) =
      ((scanPair c q rest).1, (scanPair c q rest).2 ++ b :: more) := by
  cases rest with
  | nil => simp [scanPair, hb]
  | cons d rest =>
    simp only [scanPair, List.cons_append]
    split <;> rfl

/-- A closed string is closed before the delimiter. -/
theorem scanString_append (hu : ¬ (scanString rest).1.Unclosed) :
    scanString (rest ++ b :: more) = ((scanString rest).1, (scanString rest).2 ++ b :: more) := by
  cases h : rest.dropWhile (· ≠ '"') with
  | nil =>
    -- There is no closing quote.
    have hopen : scanString rest = (ofChars .illegal ('"' :: rest), []) := by
      simp only [scanString, h]
    refine absurd ?_ hu
    rw [hopen]
    exact ⟨rfl, by simp [ofChars]⟩
  | cons d after =>
    have hend : (rest ++ b :: more).dropWhile (· ≠ '"') = d :: (after ++ b :: more) := by
      rw [List.dropWhile_append, h]
      rfl
    have htext : (rest ++ b :: more).takeWhile (· ≠ '"') = rest.takeWhile (· ≠ '"') := by
      rw [List.takeWhile_append, if_neg]
      -- The text up to the quote is not all of it, since the quote is left.
      intro hlen
      have hsum := congrArg List.length (@List.takeWhile_append_dropWhile _ (· ≠ '"') rest)
      rw [h, List.length_append, hlen, List.length_cons] at hsum
      omega
    simp only [scanString, hend, h, htext]

/-- A delimiter is not the second half of any pair. -/
theorem Delimits.second_ne {q : Pairing} (hb : Delimits b) (hq : pairing? c = some q) :
    b ≠ q.second := by
  obtain ⟨-, heq, hand, hor⟩ := hb
  unfold pairing? at hq
  split at hq <;> simp only [reduceCtorEq, Option.some.injEq] at hq <;> rw [← hq] <;> assumption

/-- **A delimiter ends a token**, unless it is a string without its closing quote. -/
theorem scan_append (hb : Delimits b) (hu : ¬ (scan c rest).1.Unclosed) :
    scan c (rest ++ b :: more) = ((scan c rest).1, (scan c rest).2 ++ b :: more) := by
  -- A sign, a pair of signs, a string, a number, a word, or something else.
  rw [scan] at hu ⊢
  split
  · next hk => simp [scan, hk]
  · next hk =>
    simp only [hk] at hu
    split
    · next q hq =>
      rw [scanPair_append (hb.second_ne hq)]
      simp [scan, hk, hq]
    · next hq =>
      simp only [hq] at hu
      simp only [scan, hk, hq]
      split
      · next hc =>
        rw [if_pos hc] at hu
        exact scanString_append hu
      · split
        · simp only [scanNumber, takeWhile_append_delimiter hb.not_isDigit,
            dropWhile_append_delimiter hb.not_isDigit]
        · split
          · simp only [scanWord, takeWhile_append_delimiter hb.1, dropWhile_append_delimiter hb.1]
          · rfl

variable {source : List Char} {t : Token}

/-- The first token starts behind the blanks, and the rest is what it leaves. -/
theorem scan_of_next? (h : next? source = some (t, rest)) :
    ∃ gap c cs, source = gap ++ c :: cs ∧ (∀ b ∈ gap, isBlank b = true) ∧ isBlank c = false ∧
      scan c cs = (t, rest) := by
  rw [next?] at h
  split at h
  · exact absurd h (by simp)
  · next c cs hdrop =>
    have hc : isBlank c = false := by
      have hhead := List.head?_dropWhile_not isBlank source
      rw [hdrop] at hhead
      exact hhead
    refine ⟨source.takeWhile isBlank, c, cs, ?_, ?_, hc, Option.some.inj h⟩
    · rw [← hdrop, List.takeWhile_append_dropWhile]
    · exact List.all_eq_true.1 List.all_takeWhile

/-- Blanks in front of a token are skipped. -/
theorem next?_of_scan {gap cs : List Char} (hgap : ∀ b ∈ gap, isBlank b = true)
    (hc : isBlank c = false) : next? (gap ++ c :: cs) = some (scan c cs) := by
  rw [next?, List.dropWhile_append_of_pos hgap, List.dropWhile_cons_of_neg (by simp [hc])]

/-- The first token is cut off the same in front of a delimiter, unless it is an unclosed string. -/
theorem next?_append (hb : Delimits b) (h : next? source = some (t, rest)) (hu : ¬ t.Unclosed) :
    next? (source ++ b :: more) = some (t, rest ++ b :: more) := by
  obtain ⟨gap, c, cs, rfl, hgap, hc, hscan⟩ := scan_of_next? h
  have hu' : ¬ (scan c cs).1.Unclosed := by rwa [hscan]
  rw [List.append_assoc, List.cons_append, next?_of_scan hgap hc, scan_append hb hu', hscan]

/-- A source without tokens in front of another one is skipped. -/
theorem next?_append_of_none (h : next? source = none) : next? (source ++ more) = next? more := by
  rw [next?] at h
  split at h
  · next hs => rw [next?, List.dropWhile_append, hs, List.isEmpty_nil, if_pos rfl, ← next?]
  · exact absurd h (by simp)

end Token

/-! ### Sources -/

/-- A source is cut into its first token and those of what that leaves. -/
theorem tokenize_of_next {source rest : List Char} {t : Token}
    (h : Token.next? source = some (t, rest)) : tokenize source = t :: tokenize rest := by
  rw [tokenize]
  split
  · next hn => rw [hn] at h; exact absurd h (by simp)
  · next u r hn =>
    rw [hn, Option.some.injEq, Prod.mk.injEq] at h
    rw [h.1, h.2]

/-- A source without a first token is cut into nothing. -/
theorem tokenize_of_none {source : List Char} (h : Token.next? source = none) :
    tokenize source = [] := by
  rw [tokenize]
  split
  · rfl
  · next hn => rw [hn] at h; exact absurd h (by simp)

/-- Sources with the same first token, and the same rest, are cut alike. -/
theorem tokenize_congr {source source' : List Char}
    (h : Token.next? source = Token.next? source') : tokenize source = tokenize source' := by
  cases hn : Token.next? source' with
  | none => rw [tokenize_of_none (h.trans hn), tokenize_of_none hn]
  | some tr =>
    obtain ⟨t, rest⟩ := tr
    rw [tokenize_of_next (h.trans hn), tokenize_of_next hn]

/-- **A source can be cut in front of a delimiter**, if no string is left open there. -/
theorem tokenize_append_of_delimits {source more : List Char} {b : Char} (hb : Token.Delimits b)
    (hu : ∀ t ∈ tokenize source, ¬ t.Unclosed) :
    tokenize (source ++ b :: more) = tokenize source ++ tokenize (b :: more) := by
  -- When the first part is used up, only blanks of it are left.
  fun_induction tokenize source with
  | case1 source hn => exact tokenize_congr (Token.next?_append_of_none hn)
  | case2 source t rest hn ih =>
    rw [tokenize_of_next (Token.next?_append hb hn (hu t List.mem_cons_self)),
      ih (fun u hu' => hu u (List.mem_cons_of_mem t hu')), List.cons_append]

/-- **A blank separates two sources**: their tokens are those of the first one and those of the
    second one, if no string of the first one is left open. -/
theorem tokenize_append {source more : List Char} {b : Char} (hb : isBlank b = true)
    (hu : ∀ t ∈ tokenize source, ¬ t.Unclosed) :
    tokenize (source ++ b :: more) = tokenize source ++ tokenize more := by
  have hblank : Token.next? [b] = none := by
    rw [Token.next?, List.dropWhile_cons_of_pos hb]
    rfl
  have hmore : tokenize (b :: more) = tokenize more :=
    tokenize_congr (Token.next?_append_of_none hblank)
  rw [tokenize_append_of_delimits (Token.delimits_of_isBlank hb) hu, hmore]

/-! ### Tokens written out -/

namespace Token

/-- A token as it is written: a string in its quotes, and every other token as its literal. -/
def spelling (t : Token) : List Char :=
  if t.kind = .string then '"' :: (t.literal.toList ++ ['"']) else t.literal.toList

/-- Tokens written out with a space between them. -/
def spaced (ts : List Token) : List Char := [' '].intercalate (ts.map spelling)

/-- The token is cut from its own spelling. -/
def Lexes (t : Token) : Prop := tokenize t.spelling = [t]

/-- Between two tokens stands a single space. -/
theorem spaced_cons_cons (t u : Token) (ts : List Token) :
    spaced (t :: u :: ts) = t.spelling ++ ' ' :: spaced (u :: ts) := by
  simp [spaced, List.intercalate]

/-- A token that the lexer can start with is cut from its spelling. -/
theorem lexes_of_scan {t : Token} {c : Char} {cs : List Char} (hs : t.spelling = c :: cs)
    (hb : isBlank c = false) (h : scan c cs = (t, [])) : t.Lexes := by
  -- Nothing is skipped in front of the token, and nothing is left behind it.
  have hn : next? t.spelling = some (t, []) := by
    rw [next?, hs, List.dropWhile_cons_of_neg (by simp [hb])]
    exact congrArg some h
  rw [Lexes, tokenize_of_next hn, tokenize_of_none rfl]

/-- A string without a quote in it is cut from its spelling. -/
theorem lexes_string {text : String} (h : '"' ∉ text.toList) : Lexes ⟨.string, text⟩ := by
  refine lexes_of_scan (if_pos rfl) (by decide) ?_
  have hall : ∀ c ∈ text.toList, (decide (c ≠ '"')) = true := by
    intro c hc
    simpa using fun hq : c = '"' => h (hq ▸ hc)
  have htext : (text.toList ++ ['"']).takeWhile (· ≠ '"') = text.toList := by
    rw [List.takeWhile_append_of_pos hall]
    simp
  have hend : (text.toList ++ ['"']).dropWhile (· ≠ '"') = ['"'] := by
    rw [List.dropWhile_append_of_pos hall]
    simp
  have hscan : scan '"' (text.toList ++ ['"']) = scanString (text.toList ++ ['"']) := rfl
  simp only [hscan, scanString, hend, htext, ofChars, String.ofList_toList]

end Token

/-- **Tokens can be cut again from what they are written out to**, if each of them can. -/
theorem tokenize_spaced {ts : List Token} (h : ∀ t ∈ ts, t.Lexes ∧ ¬ t.Unclosed) :
    tokenize (Token.spaced ts) = ts := by
  induction ts with
  | nil => exact tokenize_of_none rfl
  | cons t ts ih =>
    obtain ⟨⟨ht, hu⟩, hts⟩ := List.forall_mem_cons.1 h
    cases ts with
    | nil => simpa [Token.spaced, List.intercalate, Token.Lexes] using ht
    | cons u ts =>
      rw [Token.spaced_cons_cons, tokenize_append (by decide) (by rw [ht]; simpa using hu), ht,
        ih hts]
      rfl

/-! ### Tokens that are always spelled the same -/

namespace Token

/-- The spelling of a kind that has only one. -/
def Kind.text : Kind → String
  | .assign => "="
  | .plus => "+"
  | .minus => "-"
  | .bang => "!"
  | .asterisk => "*"
  | .slash => "/"
  | .lt => "<"
  | .gt => ">"
  | .lte => "<="
  | .gte => ">="
  | .eq => "=="
  | .notEq => "!="
  | .and => "&&"
  | .or => "||"
  | .comma => ","
  | .semicolon => ";"
  | .lparen => "("
  | .rparen => ")"
  | .lbrace => "\x7b"
  | .rbrace => "\x7d"
  | .kwLet => "incognita"
  | .kwReturn => "devuelve"
  | .kwIf => "si"
  | .kwElse => "tonces"
  | .kwFunction => "operacion"
  | .kwWhile => "mientras"
  | .kwBreak => "termina"
  | .eof | .illegal | .ident | .int | .string | .kwTrue | .kwFalse => ""

/-- The token of a kind that has only one spelling. -/
def mark (k : Kind) : Token := ⟨k, k.text⟩

@[simp] theorem mark_kind (k : Kind) : (mark k).kind = k := rfl

/-- A keyword or sign is cut from its own spelling. -/
theorem lexes_mark {k : Kind} (h : k.text ≠ "") : (mark k).Lexes := by
  cases k <;> first
    | exact absurd rfl h
    | exact lexes_of_scan rfl (by decide) (by decide +kernel)

/-- So is a reserved word, `verdadero` and `falso` included. -/
theorem lexes_keyword {word : String} {k : Kind} (h : (word, k) ∈ keywords) :
    Lexes ⟨k, word⟩ := by
  -- Eleven words, each of which is scanned once.
  simp only [keywords, List.mem_cons, List.not_mem_nil, or_false, Prod.mk.injEq] at h
  rcases h with ⟨rfl, rfl⟩ | ⟨rfl, rfl⟩ | ⟨rfl, rfl⟩ | ⟨rfl, rfl⟩ | ⟨rfl, rfl⟩ | ⟨rfl, rfl⟩ |
    ⟨rfl, rfl⟩ | ⟨rfl, rfl⟩ | ⟨rfl, rfl⟩ | ⟨rfl, rfl⟩ | ⟨rfl, rfl⟩
  all_goals exact lexes_of_scan rfl (by decide) (by decide +kernel)

end Token

end Incognita
