import Incognita.Proofs.Spacing

namespace Incognita

open Text

/-!
# Token — spellings, and the longest one

What a token of a kind may be spelled as is said by `Token.Spells`, which knows nothing of how the
characters of a source are gone through.  The lexer takes from the front of a text the longest piece
that spells anything.

* `Token.Spells` — the texts that a token of a kind is written as;
* `Token.CutOff` — a token with its spelling taken from the front of a text;
* `Token.cutOff_scan` — the token that starts with a character is such a token;
* `Token.longest_scan` — and nothing longer could be taken.
-/

namespace Token

/-! ### What tokens are spelled as -/

/-- The kinds that are written with signs. -/
def Kind.isSign : Kind → Bool
  | .assign | .plus | .minus | .bang | .asterisk | .slash | .lt | .gt | .lte | .gte | .eq | .notEq
  | .and | .or | .comma | .semicolon | .lparen | .rparen | .lbrace | .rbrace => true
  | _ => false

/-- The kinds of the reserved words. -/
def Kind.isKeyword : Kind → Bool
  | .kwLet | .kwReturn | .kwIf | .kwElse | .kwTrue | .kwFalse | .kwFunction | .kwWhile
  | .kwBreak => true
  | _ => false

/-- Whether a text is a letter or an underscore, and then letters, digits and underscores. -/
def isWord : List Char → Bool
  | [] => false
  | c :: cs => isWordStart c && cs.all isWordPart

/-- The text is in the table of the reserved words. -/
def Reserved (cs : List Char) : Prop := ∃ k, (String.ofList cs, k) ∈ keywords

/-- A token of the kind is written as the text. -/
inductive Spells : Kind → List Char → Prop
  /-- A sign is written as it is. -/
  | sign {k} (h : k.isSign = true) : Spells k k.text.toList
  /-- A reserved word is written as the table has it. -/
  | keyword {word k} (h : (word, k) ∈ keywords) : Spells k word.toList
  /-- A name is any other word. -/
  | ident {cs} (h : isWord cs = true) (hr : ¬ Reserved cs) : Spells .ident cs
  /-- An integer is at least one digit. -/
  | int {c cs} (h : (c :: cs).all isDigit = true) : Spells .int (c :: cs)
  /-- A string is in quotes and has none inside. -/
  | string {cs} (h : '"' ∉ cs) : Spells .string ('"' :: (cs ++ ['"']))

/-- Every reserved word is a word, and has one kind. -/
theorem of_mem_keywords {word : String} {k : Kind} (h : (word, k) ∈ keywords) :
    isWord word.toList = true ∧ k.isKeyword = true ∧ Kind.ofWord word = k := by
  have htable : ∀ p ∈ keywords,
      isWord p.1.toList = true ∧ p.2.isKeyword = true ∧ Kind.ofWord p.1 = p.2 := by decide +kernel
  exact htable (word, k) h

/-- A word that is not reserved is a name. -/
theorem ofWord_of_not_reserved {cs : List Char} (h : ¬ Reserved cs) :
    Kind.ofWord (String.ofList cs) = .ident := by
  have hnone : keywords.lookup (String.ofList cs) = none := by
    rw [List.lookup_eq_none_iff]
    rintro ⟨word, k⟩ hm
    simp only [ne_eq, bne_iff_ne]
    rintro rfl
    exact h ⟨k, hm⟩
  rw [Kind.ofWord, hnone]
  rfl

/-- A word spells a token of its kind. -/
theorem Spells.word {cs : List Char} (h : isWord cs = true) :
    Spells (Kind.ofWord (String.ofList cs)) cs := by
  by_cases hr : Reserved cs
  · obtain ⟨k, hk⟩ := hr
    rw [(of_mem_keywords hk).2.2]
    have hs := Spells.keyword hk
    rwa [String.toList_ofList] at hs
  · rw [ofWord_of_not_reserved hr]
    exact .ident h hr

/-- What is spelled is neither the end of the source nor an illegal token. -/
theorem Spells.kind_ne {k : Kind} {cs : List Char} (h : Spells k cs) :
    k ≠ .eof ∧ k ≠ .illegal := by
  cases h with
  | sign h => cases k <;> simp [Kind.isSign] at h ⊢
  | keyword h =>
    have hk := (of_mem_keywords h).2.1
    cases k <;> simp [Kind.isKeyword] at hk ⊢
  | ident | int | string => simp

/-! ### A token is cut off at its spelling -/

/-- The token is taken from the front of a text, which leaves `rest`.  A token that spells nothing
    is a single character, or all of a text with no quote but at its start. -/
structure CutOff (text : List Char) (t : Token) (rest : List Char) : Prop where
  text : t.spelling ++ rest = text
  spells : t.kind ≠ .illegal → Spells t.kind t.spelling
  illegal : t.kind = .illegal → (∃ c, t.spelling = [c]) ∨
    ∃ cs, t.spelling = '"' :: cs ∧ '"' ∉ cs ∧ rest = []

section

variable {c : Char} {k : Kind} {cs rest : List Char}

/-- The spelling of a token that is no string is its literal. -/
theorem spelling_ofChars (h : k ≠ .string) : (ofChars k cs).spelling = cs := by
  simp [spelling, ofChars, h]

/-- `single?` maps a character to the sign that it is. -/
theorem single?_spells (h : single? c = some k) : k.isSign = true ∧ k.text.toList = [c] := by
  unfold single? at h
  split at h <;> simp only [reduceCtorEq, Option.some.injEq] at h <;> subst h <;> decide

/-- `pairing?` maps a character to the sign of two characters that it starts, and to the one that it
    is alone, if any. -/
theorem pairing?_spells {p : Pairing} (h : pairing? c = some p) :
    (p.together.isSign = true ∧ p.together.text.toList = [c, p.second]) ∧
    (p.alone = .illegal ∨ p.alone.isSign = true ∧ p.alone.text.toList = [c]) := by
  unfold pairing? at h
  split at h <;> simp only [reduceCtorEq, Option.some.injEq] at h <;> subst h <;> decide

/-- Signs are spelled as they are, and are not illegal. -/
theorem spelling_sign (hk : k.isSign = true) :
    (ofChars k cs).spelling = cs ∧ (ofChars k cs).kind ≠ .illegal := by
  constructor
  · refine spelling_ofChars ?_
    rintro rfl
    simp [Kind.isSign] at hk
  · rintro rfl
    simp [Kind.isSign] at hk

/-- A sign is cut off where it ends. -/
theorem CutOff.sign (hk : k.isSign = true) (hcs : k.text.toList = cs) :
    CutOff (cs ++ rest) (ofChars k cs) rest := by
  obtain ⟨hspelling, hlegal⟩ := @spelling_sign k cs hk
  refine ⟨by rw [hspelling], fun _ => ?_, fun hi => absurd hi hlegal⟩
  rw [hspelling, ← hcs]
  exact .sign hk

/-- A character that is no token is cut off alone. -/
theorem CutOff.lone : CutOff (c :: rest) (ofChars .illegal [c]) rest := by
  have hspelling : (ofChars .illegal [c]).spelling = [c] := spelling_ofChars (by simp)
  refine ⟨by rw [hspelling]; rfl, fun h => absurd rfl h, fun _ => .inl ⟨c, hspelling⟩⟩

/-- A sign of one or two characters is cut off. -/
theorem cutOff_scanPair {p : Pairing} (h : pairing? c = some p) :
    CutOff (c :: rest) (scanPair c p rest).1 (scanPair c p rest).2 := by
  obtain ⟨⟨htogether, htext⟩, halone⟩ := pairing?_spells h
  -- Alone the character is a sign of its own, or illegal.
  have hone : CutOff (c :: rest) (ofChars p.alone [c]) rest := by
    rcases halone with hi | ⟨hs, ht⟩
    · rw [hi]
      exact .lone
    · exact .sign hs ht
  cases rest with
  | nil => exact hone
  | cons d rest =>
    simp only [scanPair]
    split
    · next hd =>
      subst hd
      exact .sign htogether htext
    · exact hone

/-- A string is cut off, up to its closing quote or the end of the text. -/
theorem cutOff_scanString : CutOff ('"' :: rest) (scanString rest).1 (scanString rest).2 := by
  have hsplit := List.takeWhile_append_dropWhile (p := (· ≠ '"')) (l := rest)
  have hquote : '"' ∉ rest.takeWhile (· ≠ '"') := by
    intro hm
    have hall := List.all_takeWhile (p := (· ≠ '"')) (l := rest)
    simpa using List.all_eq_true.1 hall '"' hm
  rw [scanString]
  split
  · next hnil =>
    -- There is no quote up to the end.
    rw [hnil, List.append_nil] at hsplit
    rw [hsplit] at hquote
    have hspelling : (ofChars .illegal ('"' :: rest)).spelling = '"' :: rest :=
      spelling_ofChars (by simp)
    refine ⟨by rw [hspelling, List.append_nil], fun h => absurd rfl h, fun _ => .inr ?_⟩
    exact ⟨rest, hspelling, hquote, rfl⟩
  · next d after hcons =>
    have hd : d = '"' := by
      have hhead := List.head?_dropWhile_not (· ≠ '"') rest
      rw [hcons] at hhead
      simpa using hhead
    subst hd
    rw [hcons] at hsplit
    have hspelling : (ofChars .string (rest.takeWhile (· ≠ '"'))).spelling =
        '"' :: (rest.takeWhile (· ≠ '"') ++ ['"']) := by
      simp [spelling, ofChars]
    refine ⟨?_, fun _ => ?_, fun h => absurd h (by simp [ofChars])⟩
    · rw [hspelling]
      simpa using hsplit
    · rw [hspelling]
      exact .string hquote

/-- An integer is cut off. -/
theorem cutOff_scanNumber (hc : isDigit c = true) :
    CutOff (c :: rest) (scanNumber c rest).1 (scanNumber c rest).2 := by
  have hspelling : (scanNumber c rest).1.spelling = c :: rest.takeWhile isDigit :=
    spelling_ofChars (by simp)
  refine ⟨?_, fun _ => ?_, fun h => absurd h (by simp [scanNumber, ofChars])⟩
  · rw [hspelling]
    simp [scanNumber]
  · rw [hspelling]
    exact .int (by simp [hc])

/-- A word is spelled as it is, be it a name or reserved. -/
theorem spelling_word (word : List Char) :
    Token.spelling ⟨Kind.ofWord (String.ofList word), String.ofList word⟩ = word := by
  have hne : Kind.ofWord (String.ofList word) ≠ .string := by
    by_cases hr : Reserved word
    · obtain ⟨k, hk⟩ := hr
      obtain ⟨-, hkey, hkind⟩ := of_mem_keywords hk
      rw [hkind]
      rintro rfl
      simp [Kind.isKeyword] at hkey
    · simp [ofWord_of_not_reserved hr]
  simp [spelling, hne]

/-- A start of a word with the word parts behind it is a word. -/
theorem isWord_takeWhile (hc : isWordStart c = true) :
    isWord (c :: rest.takeWhile isWordPart) = true := by
  simp [isWord, hc]

/-- A word is cut off. -/
theorem cutOff_scanWord (hc : isWordStart c = true) :
    CutOff (c :: rest) (scanWord c rest).1 (scanWord c rest).2 := by
  have hspelling : (scanWord c rest).1.spelling = c :: rest.takeWhile isWordPart :=
    spelling_word _
  have hspells : Spells (scanWord c rest).1.kind (scanWord c rest).1.spelling := by
    rw [hspelling]
    exact .word (isWord_takeWhile hc)
  refine ⟨?_, fun _ => hspells, fun h => absurd h hspells.kind_ne.2⟩
  rw [hspelling]
  simp [scanWord]

/-- **The token that starts with a character is cut off at its spelling**, and nothing is lost. -/
theorem cutOff_scan (c : Char) (rest : List Char) :
    CutOff (c :: rest) (scan c rest).1 (scan c rest).2 := by
  rw [scan]
  -- The cases of `scan`, in its order.
  split
  · next k hk =>
    obtain ⟨hs, ht⟩ := single?_spells hk
    exact .sign hs ht
  · split
    · next p hp => exact cutOff_scanPair hp
    · split
      · next hq =>
        subst hq
        exact cutOff_scanString
      · split
        · next hd => exact cutOff_scanNumber hd
        · split
          · next hw => exact cutOff_scanWord hw
          · exact .lone

/-! ### Nothing longer spells a token -/

/-- No sign starts a number or a word. -/
theorem not_word_of_single? (h : single? c = some k) :
    isDigit c = false ∧ isWordStart c = false := by
  unfold single? at h
  split at h <;> simp only [reduceCtorEq, Option.some.injEq] at h <;> decide

/-- Nor does a character that starts a sign of two. -/
theorem not_word_of_pairing? {p : Pairing} (h : pairing? c = some p) :
    isDigit c = false ∧ isWordStart c = false := by
  unfold pairing? at h
  split at h <;> simp only [reduceCtorEq, Option.some.injEq] at h <;> decide

/-- No letter is a digit of ASCII, nor is the underscore. -/
theorem not_isDigit_of_isWordStart (h : isWordStart c = true) : isDigit c = false := by
  rw [← Bool.not_eq_true]
  intro hd
  simp only [isDigit, Bool.and_eq_true, decide_eq_true_eq, Char.le_def,
    UInt32.le_iff_toNat_le] at hd
  have hlo : 48 ≤ c.toNat := hd.1
  have hhi : c.toNat ≤ 57 := hd.2
  -- The digits are a range of their own in the tables, apart from all letters.
  have hin : Ranges.contains [(48, 57)] c.toNat = true := by
    simp only [Ranges.contains_cons]
    grind
  have hletter : isLetter c = false := Ranges.not_contains (by decide +kernel) hin
  have hline : c ≠ '_' := by
    rintro rfl
    exact absurd hhi (by decide)
  simp [isWordStart, hletter, hline] at h

/-- A character that starts a number or a word is no sign and no quote. -/
theorem scan_of_word (h : isDigit c = true ∨ isWordStart c = true) :
    scan c rest = if isDigit c then scanNumber c rest else scanWord c rest := by
  -- What comes first in `scan` does not apply to digits and letters.
  have hsingle : single? c = none := by
    cases hs : single? c with
    | none => rfl
    | some k =>
      obtain ⟨hd, hw⟩ := not_word_of_single? hs
      simp [hd, hw] at h
  have hpairing : pairing? c = none := by
    cases hp : pairing? c with
    | none => rfl
    | some p =>
      obtain ⟨hd, hw⟩ := not_word_of_pairing? hp
      simp [hd, hw] at h
  have hquote : c ≠ '"' := by
    rintro rfl
    exact absurd h (by decide)
  simp only [scan, hsingle, hpairing, if_neg hquote]
  split
  · rfl
  · next hd => rw [if_pos (h.resolve_left hd)]

/-- A prefix of which all members pass is not longer than what is taken. -/
theorem length_le_takeWhile {p : Char → Bool} (h : ∀ d ∈ cs, p d = true) (hp : cs <+: rest) :
    cs.length ≤ (rest.takeWhile p).length := by
  obtain ⟨tail, rfl⟩ := hp
  rw [List.takeWhile_append_of_pos h, List.length_append]
  exact Nat.le_add_right _ _

/-- No integer at the front of a text is longer than the token that is cut off. -/
theorem longest_int (h : (c :: cs).all isDigit = true) (hp : cs <+: rest) :
    (scan c rest).1.kind ≠ .illegal ∧ (c :: cs).length ≤ (scan c rest).1.spelling.length := by
  rw [List.all_cons, Bool.and_eq_true, List.all_eq_true] at h
  obtain ⟨hc, hcs⟩ := h
  have hscan : scan c rest = scanNumber c rest := by rw [scan_of_word (.inl hc), if_pos hc]
  have hspelling : (scanNumber c rest).1.spelling = c :: rest.takeWhile isDigit :=
    spelling_ofChars (by simp)
  rw [hscan, hspelling]
  exact ⟨by simp [scanNumber, ofChars], Nat.succ_le_succ (length_le_takeWhile hcs hp)⟩

/-- No word at the front of a text is longer than the token that is cut off. -/
theorem longest_word (h : isWord (c :: cs) = true) (hp : cs <+: rest) :
    (scan c rest).1.kind ≠ .illegal ∧ (c :: cs).length ≤ (scan c rest).1.spelling.length := by
  rw [isWord, Bool.and_eq_true, List.all_eq_true] at h
  obtain ⟨hc, hcs⟩ := h
  have hscan : scan c rest = scanWord c rest := by
    rw [scan_of_word (.inr hc), not_isDigit_of_isWordStart hc, if_neg (by simp)]
  have hspelling : (scanWord c rest).1.spelling = c :: rest.takeWhile isWordPart :=
    spelling_word _
  rw [hscan, hspelling]
  refine ⟨?_, Nat.succ_le_succ (length_le_takeWhile hcs hp)⟩
  exact (Spells.word (isWord_takeWhile hc)).kind_ne.2

/-- A string in quotes is cut off with its text. -/
theorem scan_string {text tail : List Char} (h : '"' ∉ text) :
    (scan '"' (text ++ '"' :: tail)).1 = ofChars .string text := by
  have hall : ∀ d ∈ text, (decide (d ≠ '"')) = true := by
    intro d hd
    simpa using fun hq : d = '"' => h (hq ▸ hd)
  have hscan : scan '"' (text ++ '"' :: tail) = scanString (text ++ '"' :: tail) := rfl
  rw [hscan, scanString, List.dropWhile_append_of_pos hall, List.takeWhile_append_of_pos hall]
  simp

/-- A sign is a character by itself, or one that also makes a pair, or the pair. -/
theorem sign_cases (h : k.isSign = true) :
    (∃ a, k.text.toList = [a] ∧ single? a = some k) ∨
    ∃ a p, pairing? a = some p ∧ (k.text.toList = [a] ∧ p.alone = k ∨
      k.text.toList = [a, p.second] ∧ p.together = k) := by
  cases k with
  | lparen | rparen | lbrace | rbrace | comma | semicolon | plus | minus | asterisk | slash =>
    exact .inl ⟨_, rfl, rfl⟩
  | bang => exact .inr ⟨'!', _, rfl, .inl ⟨rfl, rfl⟩⟩
  | notEq => exact .inr ⟨'!', _, rfl, .inr ⟨rfl, rfl⟩⟩
  | assign => exact .inr ⟨'=', _, rfl, .inl ⟨rfl, rfl⟩⟩
  | eq => exact .inr ⟨'=', _, rfl, .inr ⟨rfl, rfl⟩⟩
  | lt => exact .inr ⟨'<', _, rfl, .inl ⟨rfl, rfl⟩⟩
  | lte => exact .inr ⟨'<', _, rfl, .inr ⟨rfl, rfl⟩⟩
  | gt => exact .inr ⟨'>', _, rfl, .inl ⟨rfl, rfl⟩⟩
  | gte => exact .inr ⟨'>', _, rfl, .inr ⟨rfl, rfl⟩⟩
  | and => exact .inr ⟨'&', _, rfl, .inr ⟨rfl, rfl⟩⟩
  | or => exact .inr ⟨'|', _, rfl, .inr ⟨rfl, rfl⟩⟩
  | _ => simp [Kind.isSign] at h

/-- A character that may start a sign of two is scanned as one. -/
theorem scan_of_pairing? {p : Pairing} (h : pairing? c = some p) :
    scan c rest = scanPair c p rest := by
  have hsingle : single? c = none := by
    unfold pairing? at h
    split at h <;> simp only [reduceCtorEq, Option.some.injEq] at h <;> rfl
  simp only [scan, hsingle, h]

/-- A character that pairs is cut off alone, or with the one that it pairs with. -/
theorem scanPair_cases (c : Char) (p : Pairing) (rest : List Char) :
    (scanPair c p rest).1 = ofChars p.alone [c] ∧ rest.head? ≠ some p.second ∨
    (scanPair c p rest).1 = ofChars p.together [c, p.second] ∧ rest.head? = some p.second := by
  cases rest with
  | nil => exact .inl ⟨rfl, by simp⟩
  | cons d rest =>
    simp only [scanPair]
    split
    · next hd => exact .inr ⟨by rw [hd], by simp [hd]⟩
    · next hd => exact .inl ⟨rfl, by simpa using hd⟩

/-- A sign is found in front of whatever follows it, or a longer one is. -/
theorem longest_sign (hk : k.isSign = true) (hp : k.text.toList <+: c :: rest) :
    (scan c rest).1.kind ≠ .illegal ∧
      k.text.toList.length ≤ (scan c rest).1.spelling.length := by
  rcases sign_cases hk with ⟨a, htext, ha⟩ | ⟨a, p, ha, htext⟩
  · rw [htext] at hp ⊢
    obtain rfl : a = c := (List.cons_prefix_cons.1 hp).1
    have hscan : scan a rest = (ofChars k [a], rest) := by simp only [scan, ha]
    rw [hscan, (spelling_sign hk).1]
    exact ⟨(spelling_sign hk).2, Nat.le_refl _⟩
  · obtain ⟨rfl, hlen⟩ : a = c ∧ k.text.toList.length ≤ 2 := by
      rcases htext with ⟨htext, -⟩ | ⟨htext, -⟩
      all_goals
        rw [htext] at hp ⊢
        exact ⟨(List.cons_prefix_cons.1 hp).1, by simp⟩
    rw [scan_of_pairing? ha]
    rcases scanPair_cases a p rest with ⟨hscan, hnext⟩ | ⟨hscan, -⟩
    · rcases htext with ⟨htext, rfl⟩ | ⟨htext, -⟩
      · rw [hscan, htext, (spelling_sign hk).1]
        exact ⟨(spelling_sign hk).2, Nat.le_refl _⟩
      · -- The second character follows, so the pair is cut off.
        rw [htext] at hp
        obtain ⟨tail, htail⟩ := hp
        rw [List.cons_append, List.cons_append, List.cons.injEq] at htail
        exact absurd (by rw [← htail.2]; rfl) hnext
    · have hs := (pairing?_spells ha).1.1
      rw [hscan, (spelling_sign hs).1]
      exact ⟨(spelling_sign hs).2, hlen⟩

/-- **Nothing longer spells a token**: where anything in front of a text spells a token, a token is
    cut off that is at least as long.  A sign is cut off with its second character where there is
    one, and words and numbers are taken as far as they go. -/
theorem longest_scan (h : Spells k cs) (hp : cs <+: c :: rest) :
    (scan c rest).1.kind ≠ .illegal ∧ cs.length ≤ (scan c rest).1.spelling.length := by
  -- Every text that spells a token starts with the character.
  have hcons : ∀ {d ds}, d :: ds <+: c :: rest → c = d ∧ ds <+: rest := by
    intro d ds hd
    obtain ⟨rfl, hds⟩ := List.cons_prefix_cons.1 hd
    exact ⟨rfl, hds⟩
  cases h with
  | sign hk => exact longest_sign hk hp
  | @keyword word _ hk =>
    have hw := (of_mem_keywords hk).1
    cases hword : word.toList with
    | nil => simp [hword, isWord] at hw
    | cons d ds =>
      rw [hword] at hw hp
      obtain ⟨rfl, hds⟩ := hcons hp
      exact longest_word hw hds
  | ident hw =>
    cases cs with
    | nil => simp [isWord] at hw
    | cons d ds =>
      obtain ⟨rfl, hds⟩ := hcons hp
      exact longest_word hw hds
  | int hd =>
    obtain ⟨rfl, hds⟩ := hcons hp
    exact longest_int hd hds
  | @string text hq =>
    obtain ⟨rfl, tail, htail⟩ := hcons hp
    rw [← htail, List.append_assoc, List.singleton_append, scan_string hq]
    simp [spelling, ofChars]

end

/-! ### Words and numbers among the spellings -/

/-- A sign is no word. -/
theorem not_isWord_of_isSign {k : Kind} (h : k.isSign = true) : isWord k.text.toList = false := by
  have hall : ∀ k ∈ Kind.all, k.isSign = true → isWord k.text.toList = false := by decide +kernel
  exact hall k (by cases k <;> decide) h

/-- What is spelled as a word has the kind of a reserved word exactly if it is one. -/
theorem Spells.isKeyword_iff {k : Kind} {cs : List Char} (h : Spells k cs)
    (hw : isWord cs = true) : k.isKeyword = true ↔ Reserved cs := by
  cases h with
  | sign hk => simp [not_isWord_of_isSign hk] at hw
  | @keyword word _ hk =>
    refine iff_of_true (of_mem_keywords hk).2.1 ⟨k, ?_⟩
    rwa [String.ofList_toList]
  | ident _ hr => exact iff_of_false (by simp [Kind.isKeyword]) hr
  | int hd =>
    simp only [isWord, List.all_cons, Bool.and_eq_true] at hw hd
    rw [not_isDigit_of_isWordStart hw.1] at hd
    exact absurd hd.1 (by simp)
  | string => exact absurd hw (by rw [isWord, show isWordStart '"' = false by decide]; simp)

/-- An integer is spelled with digits, at least one. -/
theorem Spells.all_isDigit {cs : List Char} (h : Spells .int cs) :
    cs ≠ [] ∧ cs.all isDigit = true := by
  cases h with
  | sign hk => simp [Kind.isSign] at hk
  | keyword hk => simpa [Kind.isKeyword] using (of_mem_keywords hk).2.1
  | int hd => exact ⟨by simp, hd⟩

/-- A string is spelled with quotes around a text without any. -/
theorem Spells.quoted {cs : List Char} (h : Spells .string cs) :
    ∃ text, cs = '"' :: (text ++ ['"']) ∧ '"' ∉ text := by
  cases h with
  | sign hk => simp [Kind.isSign] at hk
  | keyword hk => simpa [Kind.isKeyword] using (of_mem_keywords hk).2.1
  | string hq => exact ⟨_, rfl, hq⟩

/-- A word that goes on is a word, and a number that goes on is a number. -/
theorem Spells.snoc_word {cs : List Char} {d : Char} (hw : isWord cs = true)
    (hd : isWordPart d = true) : ∃ k, Spells k (cs ++ [d]) := by
  refine ⟨_, .word ?_⟩
  cases cs with
  | nil => simp [isWord] at hw
  | cons c cs =>
    simp only [isWord, List.cons_append, List.all_append, Bool.and_eq_true] at hw ⊢
    exact ⟨hw.1, hw.2, by simp [hd]⟩

/-- One more digit makes another integer. -/
theorem Spells.snoc_int {cs : List Char} {d : Char} (h : Spells .int cs)
    (hd : isDigit d = true) : Spells .int (cs ++ [d]) := by
  obtain ⟨hne, hall⟩ := h.all_isDigit
  cases cs with
  | nil => exact absurd rfl hne
  | cons c cs => exact .int (by simpa [hd] using hall)

end Token

end Incognita
