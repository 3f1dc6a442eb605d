import Incognita.Proofs.Spacing
import Incognita.Text.Utf8

namespace Incognita

open Text

/-!
# Token — blanks between sources that are read from bytes

Bytes are read as characters before they are cut into tokens, and bytes that are no characters are
read, too.  Put one behind the other, two sources could be read otherwise than each for itself: the
last bytes of the first one may lack what the first bytes of the second one are.  Blanks between
them rule that out, and no token goes on through them either.

* `Utf8.continues` — the bytes that no character starts with;
* `Utf8.chars_append` — bytes can be cut in front of any other byte, and behind characters that
  are complete;
* `Utf8.chars_between` — so characters that are complete are read wherever they stand;
* `tokenize_separated` — hence the tokens of two sources with blanks between them are those of the
  one and those of the other.
-/

/-! ### Bytes read in two parts -/

namespace Text.Utf8

/-- A byte that continues a character and starts none. -/
def continues (b : UInt8) : Bool := within 0x80 0xBF b

variable {a b : UInt8} {rest more xs ys : List UInt8}

/-- Whatever starts a character, the byte behind it continues it. -/
theorem continues_of_second (h : within (secondBounds a).1 (secondBounds a).2 b = true) :
    continues b = true := by
  have hbounds : 0x80 ≤ (secondBounds a).1 ∧ (secondBounds a).2 ≤ 0xBF := by
    unfold secondBounds
    repeat' split
    all_goals decide
  unfold within at h
  unfold continues within
  simp only [Bool.and_eq_true, decide_eq_true_eq] at h ⊢
  exact ⟨UInt8.le_trans hbounds.1 h.1, UInt8.le_trans h.2 hbounds.2⟩

/-- A byte that starts a character is not the second one of any. -/
theorem not_second (h : continues b = false) :
    within (secondBounds a).1 (secondBounds a).2 b = false := by
  rw [← Bool.not_eq_true] at h ⊢
  exact fun hsecond => h (continues_of_second hsecond)

/-- A byte that continues a character starts none, so it is no character by itself. -/
theorem first_of_continues (h : continues a = true) : first a rest = (replacement, 0) := by
  have hlead : ¬ a < 0x80 ∧ within 0xC2 0xDF a = false ∧ within 0xE0 0xEF a = false ∧
      within 0xF0 0xF4 a = false := by
    simp only [continues, within, Bool.and_eq_true, Bool.and_eq_false_iff, decide_eq_true_eq,
      decide_eq_false_iff_not, UInt8.le_iff_toNat_le, UInt8.lt_iff_toNat_lt,
      UInt8.reduceToNat] at h ⊢
    omega
  obtain ⟨hone, htwo, hthree, hfour⟩ := hlead
  unfold first
  rw [if_neg hone]
  simp only [htwo, hthree, hfour]
  grind

/-- A character takes no more bytes than there are. -/
theorem first_le : (first a rest).2 ≤ rest.length := by
  unfold first
  split
  · exact Nat.zero_le _
  · -- at most three bytes are looked at
    match rest with
    | [] => exact Nat.zero_le _
    | [b] => grind
    | [b, c] => grind
    | b :: c :: d :: rest => grind

/-- **The first character does not change with what comes next**, if it is complete or what comes
    next does not continue it.  Bytes that continue a character are the only ones that change what
    comes before them. -/
theorem first_append
    (h : (first a rest).1 ≠ replacement ∨ ∀ l ∈ more.head?, continues l = false) :
    first a (rest ++ more) = first a rest := by
  cases more with
  | nil => rw [List.append_nil]
  | cons l more =>
    simp only [List.head?_cons, Option.mem_some_iff, forall_eq'] at h
    by_cases ha : a < 0x80
    · simp only [first, if_pos ha]
    · simp only [first, if_neg ha] at h ⊢
      -- the byte `l` is the second, the third, the fourth, or is not looked at
      match rest with
      | [] =>
        have hl : continues l = false := h.resolve_left (by simp)
        simp only [List.nil_append, not_second hl, Bool.not_false, if_true]
      | [b] =>
        simp only [List.cons_append, List.nil_append] at h ⊢
        grind [continues]
      | [b, c] =>
        simp only [List.cons_append, List.nil_append] at h ⊢
        grind [continues]
      | b :: c :: d :: rest => rfl

/-- The first character is decoded from as many bytes as it takes, the others from the rest. -/
theorem chars_cons :
    chars (a :: rest) = (first a rest).1 :: chars (rest.drop (first a rest).2) := by rw [chars]

/-- **Bytes can be read in two parts**, if the first part is complete characters or the second one
    does not start with a byte that continues one. -/
theorem chars_append
    (h : (∀ c ∈ chars xs, c ≠ replacement) ∨ ∀ l ∈ ys.head?, continues l = false) :
    chars (xs ++ ys) = chars xs ++ chars ys := by
  fun_induction chars xs with
  | case1 => rfl
  | case2 a rest ih =>
    have hfirst : first a (rest ++ ys) = first a rest :=
      first_append (h.imp_left fun hall => hall _ List.mem_cons_self)
    have hdrop : (rest ++ ys).drop (first a rest).2 = rest.drop (first a rest).2 ++ ys :=
      List.drop_append_of_le_length first_le
    have hrest := ih (h.imp_left fun hall c hc => hall c (List.mem_cons_of_mem _ hc))
    rw [List.cons_append, chars_cons, hfirst, hdrop, hrest, List.cons_append]

/-- **Complete characters are read wherever they stand**, and so is what stands around them. -/
theorem chars_between (hne : xs ≠ []) (h : ∀ c ∈ chars xs, c ≠ replacement)
    (before after : List UInt8) :
    chars (before ++ xs ++ after) = chars before ++ (chars xs ++ chars after) := by
  obtain ⟨a, rest, rfl⟩ := List.exists_cons_of_ne_nil hne
  have hstart : continues a = false := by
    rw [← Bool.not_eq_true]
    intro ha
    rw [chars_cons, first_of_continues ha] at h
    exact h replacement List.mem_cons_self rfl
  have hhead : ∀ l ∈ (a :: rest ++ after).head?, continues l = false := by
    rintro l ⟨⟩
    exact hstart
  rw [List.append_assoc, chars_append (.inr hhead), chars_append (.inl h)]

end Text.Utf8

/-! ### Blanks between two sources -/

/-- A source of blanks in front of another one is skipped. -/
theorem tokenize_blanks_append {blanks more : List Char} (hb : ∀ b ∈ blanks, isBlank b = true) :
    tokenize (blanks ++ more) = tokenize more := by
  apply tokenize_congr
  rw [Token.next?, List.dropWhile_append_of_pos hb, ← Token.next?]

/-- Blanks separate two sources, if no string of the first one is left open. -/
theorem tokenize_append_blanks {source blanks more : List Char} (hne : blanks ≠ [])
    (hb : ∀ b ∈ blanks, isBlank b = true) (hu : ∀ t ∈ tokenize source, ¬ t.Unclosed) :
    tokenize (source ++ (blanks ++ more)) = tokenize source ++ tokenize more := by
  obtain ⟨b, bs, rfl⟩ := List.exists_cons_of_ne_nil hne
  obtain ⟨hblank, hblanks⟩ := List.forall_mem_cons.1 hb
  rw [List.cons_append, tokenize_append hblank hu, tokenize_blanks_append hblanks]

/-- **Cutting into tokens distributes over white space.**  Any two sources of bytes, with bytes
    between them that are read as one or more blanks, have the tokens of the first one and those of
    the second one, if the first one does not end in a string without its closing quote. -/
theorem tokenize_separated {source blanks more : List UInt8} (hne : blanks ≠ [])
    (hblank : ∀ c ∈ Utf8.chars blanks, isBlank c = true)
    (hclosed : ∀ t ∈ tokenize (Utf8.chars source), ¬ t.Unclosed) :
    tokenize (Utf8.chars (source ++ blanks ++ more)) =
      tokenize (Utf8.chars source) ++ tokenize (Utf8.chars more) := by
  have hcomplete : ∀ c ∈ Utf8.chars blanks, c ≠ Utf8.replacement :=
    fun c hc => ne_of_isBlank (hblank c hc) (by decide)
  have hchars : Utf8.chars blanks ≠ [] := by
    obtain ⟨b, bs, rfl⟩ := List.exists_cons_of_ne_nil hne
    rw [Utf8.chars_cons]
    exact List.cons_ne_nil _ _
  rw [Utf8.chars_between hne hcomplete, tokenize_append_blanks hchars hblank hclosed]

/-- A name and two bytes that lack a third one, then a blank of two bytes, then the third byte and a
    string that is left open.  Without the blank, the three bytes would be a letter, and the name
    would go on with it. -/
theorem tokenize_separated_torn_letter :
    tokenize (Utf8.chars ([0x61, 0xE1, 0x83] ++ [0xC2, 0xA0] ++ [0x90, 0x22, 0x62])) =
      [⟨.ident, "a"⟩, ⟨.illegal, "\uFFFD"⟩, ⟨.illegal, "\uFFFD"⟩] ++
        [⟨.illegal, "\uFFFD"⟩, ⟨.illegal, "\"b"⟩] ∧
    tokenize (Utf8.chars ([0x61, 0xE1, 0x83] ++ [0x90, 0x22, 0x62])) =
      [⟨.ident, "a\u10D0"⟩, ⟨.illegal, "\"b"⟩] := by
  have hfirst : tokenize (Utf8.chars [0x61, 0xE1, 0x83]) =
      [⟨.ident, "a"⟩, ⟨.illegal, "\uFFFD"⟩, ⟨.illegal, "\uFFFD"⟩] := by decide +kernel
  have hsecond : tokenize (Utf8.chars [0x90, 0x22, 0x62]) =
      [⟨.illegal, "\uFFFD"⟩, ⟨.illegal, "\"b"⟩] := by decide +kernel
  have hclosed : ∀ t ∈ tokenize (Utf8.chars [0x61, 0xE1, 0x83]), ¬ t.Unclosed := by
    rw [hfirst]
    simp [Token.Unclosed]
  have hblank : ∀ c ∈ Utf8.chars [0xC2, 0xA0], isBlank c = true := by
    have hchars : Utf8.chars [0xC2, 0xA0] = ['\u00A0'] := by decide +kernel
    rw [hchars, List.forall_mem_singleton]
    decide
  refine ⟨?_, by decide +kernel⟩
  rw [tokenize_separated (by decide) hblank hclosed, hfirst, hsecond]

end Incognita
