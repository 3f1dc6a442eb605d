import Incognita.Proofs.Concatenation
import Incognita.Proofs.Spellings

namespace Incognita

open Text

/-!
# Token — tokens survive being spaced out

The tokens of a source can be written out with single spaces between them, and are then cut as they
were.  A token that is no word of the language, such as a lone ampersand, is one again when it is
cut from its own spelling, and a string without its closing quote still takes everything to the end,
which is nothing but itself.

* `Token.scan_spelling` — a token is cut again from its spelling, with nothing behind it;
* `Token.lexes_of_mem_tokenize` — so is every token of a source;
* `tokenize_respaced` — hence all of them are, with spaces between them.
-/

namespace Token

/-! ### A token cut from its own spelling -/

theorem takeWhile_of_all {p : Char → Bool} {cs : List Char} (h : cs.all p = true) :
    cs.takeWhile p = cs ∧ cs.dropWhile p = [] := by
  rw [List.all_eq_true] at h
  have htake := @List.takeWhile_append_of_pos _ p cs [] h
  have hdrop := @List.dropWhile_append_of_pos _ p cs [] h
  rw [List.append_nil, List.takeWhile_nil, List.append_nil] at htake
  rw [List.append_nil, List.dropWhile_nil] at hdrop
  exact ⟨htake, hdrop⟩

variable {c : Char} {rest : List Char}

/-- A sign that may pair is cut from its own spelling again, alone or with its second half. -/
theorem scanPair_spelling {p : Pairing} (h : pairing? c = some p) :
    ∃ cs, (scanPair c p rest).1.spelling = c :: cs ∧
      scanPair c p cs = ((scanPair c p rest).1, []) := by
  obtain ⟨⟨htogether, -⟩, halone⟩ := pairing?_spells h
  -- Either the second half was there and belongs to the spelling, or it was not.
  rcases scanPair_cases c p rest with ⟨hscan, -⟩ | ⟨hscan, -⟩
  · refine ⟨[], ?_, by rw [hscan]; rfl⟩
    rw [hscan]
    apply spelling_ofChars
    rcases halone with hi | ⟨hs, -⟩
    · simp [hi]
    · rintro hstring
      simp [hstring, Kind.isSign] at hs
  · refine ⟨[p.second], ?_, by rw [hscan]; simp [scanPair]⟩
    rw [hscan]
    exact (spelling_sign htogether).1

/-- A string is cut from its own spelling again, closed or not. -/
theorem scanString_spelling (rest : List Char) :
    ∃ cs, (scanString rest).1.spelling = '"' :: cs ∧ scanString cs = ((scanString rest).1, []) := by
  rw [scanString]
  split
  · next hnil =>
    -- No quote comes, whether the source goes on or not.
    refine ⟨rest, spelling_ofChars (by simp), ?_⟩
    simp only [scanString, hnil]
  · next d after hcons =>
    refine ⟨rest.takeWhile (· ≠ '"') ++ ['"'], by simp [spelling, ofChars], ?_⟩
    have hall : ∀ c ∈ rest.takeWhile (· ≠ '"'), (decide (c ≠ '"')) = true :=
      List.all_eq_true.1 List.all_takeWhile
    rw [scanString, List.dropWhile_append_of_pos hall, List.takeWhile_append_of_pos hall]
    simp

/-- **A token is cut again from its own spelling**, and takes all of it.  With nothing behind it a
    token has to stop where its spelling stops. -/
theorem scan_spelling (c : Char) (rest : List Char) :
    ∃ cs, (scan c rest).1.spelling = c :: cs ∧ scan c cs = ((scan c rest).1, []) := by
  -- The first character alone says how the token is looked for.
  cases hs : single? c with
  | some k =>
    have hscan : ∀ cs, scan c cs = (ofChars k [c], cs) := fun cs => by simp only [scan, hs]
    refine ⟨[], ?_, by rw [hscan, hscan]⟩
    rw [hscan]
    exact (spelling_sign (single?_spells hs).1).1
  | none =>
    cases hp : pairing? c with
    | some p =>
      simp only [scan_of_pairing? hp]
      exact scanPair_spelling hp
    | none =>
      simp only [scan, hs, hp]
      split
      · next hq =>
        subst hq
        exact scanString_spelling rest
      · split
        · refine ⟨rest.takeWhile isDigit, spelling_ofChars (by simp), ?_⟩
          obtain ⟨htake, hdrop⟩ := takeWhile_of_all (List.all_takeWhile (p := isDigit) (l := rest))
          simp only [scanNumber, htake, hdrop]
        · split
          · refine ⟨rest.takeWhile isWordPart, spelling_word _, ?_⟩
            obtain ⟨htake, hdrop⟩ :=
              takeWhile_of_all (List.all_takeWhile (p := isWordPart) (l := rest))
            simp only [scanWord, htake, hdrop]
          · exact ⟨[], spelling_ofChars (by simp), rfl⟩

/-! ### The tokens of a source -/

/-- What holds of every token that starts with a character other than a blank holds of all tokens of
    a source. -/
theorem forall_mem_tokenize {P : Token → Prop}
    (h : ∀ c rest, isBlank c = false → P (scan c rest).1) (source : List Char) :
    ∀ t ∈ tokenize source, P t := by
  fun_induction tokenize source with
  | case1 => simp
  | case2 source t rest hn ih =>
    obtain ⟨gap, c, cs, -, -, hc, hscan⟩ := scan_of_next? hn
    have ht : P t := by
      have hfirst := h c cs hc
      rwa [hscan] at hfirst
    exact List.forall_mem_cons.2 ⟨ht, ih⟩

/-- **Every token of a source is cut from its own spelling.**  So are strings without their closing
    quote, as long as nothing stands behind them. -/
theorem lexes_of_mem_tokenize {source : List Char} {t : Token} (h : t ∈ tokenize source) :
    t.Lexes := by
  refine forall_mem_tokenize (P := Lexes) (fun c rest hc => ?_) source t h
  obtain ⟨cs, hspelling, hscan⟩ := scan_spelling c rest
  exact lexes_of_scan hspelling hc hscan

/-- Every token of a source that is one of the language is spelled as its kind is. -/
theorem spells_of_mem_tokenize {source : List Char} {t : Token} (h : t ∈ tokenize source) :
    t.kind ≠ .illegal → Spells t.kind t.spelling :=
  forall_mem_tokenize (P := fun t => t.kind ≠ .illegal → Spells t.kind t.spelling)
    (fun c rest _ => (cutOff_scan c rest).spells) source t h

end Token

/-- **Tokens survive being spaced out.**  The tokens of a source, written out with a space between
    them, are cut as the same tokens, whatever the source is. -/
theorem tokenize_respaced (source : List Char) :
    tokenize (Token.spaced (tokenize source)) = tokenize source := by
  fun_induction tokenize source with
  | case1 => exact tokenize_of_none rfl
  | case2 source t rest hn ih =>
    have hmem : t ∈ tokenize source := by
      rw [tokenize_of_next hn]
      exact List.mem_cons_self
    have hlexes : tokenize t.spelling = [t] := Token.lexes_of_mem_tokenize hmem
    cases hrest : tokenize rest with
    | nil => simpa [Token.spaced, List.intercalate] using hlexes
    | cons u us =>
      -- Only the last token can be a string that is left open.
      have hu : ¬ t.Unclosed := by
        intro hu
        rw [Token.next?_unclosed hn hu, tokenize_of_none rfl] at hrest
        exact absurd hrest (by simp)
      rw [hrest] at ih
      rw [Token.spaced_cons_cons, tokenize_append (by decide) (by rw [hlexes]; simpa using hu),
        hlexes, ih]
      rfl

end Incognita
