namespace Incognita

/-!
# Outlines — nested lists and their texts

The prefix form of a tree is a nested list of words and quoted texts.  A word ends in front of the
first character that it cannot have, a quoted text ends with the next quote, and a list with the
parenthesis that closes it.  So the text of a nested list says where each of its parts ends, and no
other nested list has the same text.

* `Form` — nested lists;
* `Form.text`, `Form.joined` — their texts, and the texts of several with a separator between them;
* `Form.Proper` — words that are plain, and quoted texts without quotes;
* `Form.text_inj`, `Form.joined_inj` — texts that go on alike are those of the same lists.
-/

/-- A nested list. -/
inductive Form where
  /-- A word without blanks, parentheses and quotes. -/
  | word (w : String)
  /-- A text in quotes. -/
  | quoted (s : String)
  /-- The items of a list. -/
  | list (items : List Form)

namespace Form

/-- Whether a word may have the character. -/
def isPlain : Char → Bool
  | ' ' | '\n' | '(' | ')' | '"' => false
  | _ => true

mutual

/-- The text of a nested list. -/
def text : Form → List Char
  | .word w => w.toList
  | .quoted s => '"' :: (s.toList ++ ['"'])
  | .list xs => '(' :: (joined ' ' xs ++ [')'])

/-- The texts of several, with a separator between them. -/
def joined (sep : Char) : List Form → List Char
  | [] => []
  | x :: xs => x.text ++ following sep xs

/-- The texts of several, with a separator in front of each. -/
def following (sep : Char) : List Form → List Char
  | [] => []
  | x :: xs => sep :: (x.text ++ following sep xs)

end

/-- A separator stands between the first text and the others. -/
theorem joined_cons_of_ne_nil {sep : Char} {x : Form} {xs : List Form} (h : xs ≠ []) :
    joined sep (x :: xs) = x.text ++ sep :: joined sep xs := by
  cases xs with
  | nil => exact absurd rfl h
  | cons y ys => rfl

/-- The text can stand as a word. -/
def IsWord (w : String) : Prop := w.toList ≠ [] ∧ w.toList.all isPlain = true

instance (w : String) : Decidable (IsWord w) := inferInstanceAs (Decidable (_ ∧ _))

mutual

/-- The words are plain and not empty, and the quoted texts have no quotes in them. -/
def Proper : Form → Prop
  | .word w => IsWord w
  | .quoted s => '"' ∉ s.toList
  | .list xs => ProperAll xs

/-- The same for several. -/
def ProperAll : List Form → Prop
  | [] => True
  | x :: xs => x.Proper ∧ ProperAll xs

end

/-! ### Where the parts of a text end -/

/-- Two runs of characters are the same if each goes on with another kind of character. -/
theorem run_inj {p : Char → Bool} {a b r r' : List Char} (ha : ∀ c ∈ a, p c = true)
    (hb : ∀ c ∈ b, p c = true) (hr : ∀ c ∈ r.head?, p c = false) (hr' : ∀ c ∈ r'.head?, p c = false)
    (h : a ++ r = b ++ r') : a = b ∧ r = r' := by
  induction a generalizing b with
  | nil =>
    cases b with
    | nil => exact ⟨rfl, h⟩
    | cons c b =>
      -- One text goes on where the other one has ended.
      have hc : p c = false := hr c (by rw [show r = _ from h]; rfl)
      rw [hb c List.mem_cons_self] at hc
      exact absurd hc (by simp)
  | cons c a ih =>
    cases b with
    | nil =>
      have hc : p c = false := hr' c (by rw [← show _ = r' from h]; rfl)
      rw [ha c List.mem_cons_self] at hc
      exact absurd hc (by simp)
    | cons d b =>
      obtain ⟨rfl, hrest⟩ := List.cons.inj h
      obtain ⟨rfl, rfl⟩ := ih (List.forall_mem_cons.1 ha).2 (List.forall_mem_cons.1 hb).2 hrest
      exact ⟨rfl, rfl⟩

/-- What stands behind a part of a text: nothing, a separator or a closing parenthesis. -/
def Ends (r : List Char) : Prop := ∀ c ∈ r.head?, c = ' ' ∨ c = '\n' ∨ c = ')'

/-- What stands behind the last of several parts: nothing or a closing parenthesis. -/
def Closes (r : List Char) : Prop := ∀ c ∈ r.head?, c = ')'

/-- No word goes on with what ends it. -/
theorem Ends.not_isPlain {r : List Char} (h : Ends r) : ∀ c ∈ r.head?, isPlain c = false := by
  intro c hc
  rcases h c hc with rfl | rfl | rfl <;> rfl

/-- A closing parenthesis closes a list. -/
theorem closes_rparen (r : List Char) : Closes (')' :: r) := by
  rintro c ⟨⟩
  rfl

/-- What stands behind a part is the next separator, or what closes the list. -/
theorem ends_following {sep : Char} (hs : sep = ' ' ∨ sep = '\n') {r : List Char} (hr : Closes r)
    (xs : List Form) : Ends (following sep xs ++ r) := by
  cases xs with
  | nil => exact fun c hc => .inr (.inr (hr c hc))
  | cons x xs =>
    rintro c ⟨⟩
    rcases hs with hs | hs
    · exact .inl hs
    · exact .inr (.inl hs)

/-- A word starts with a character that starts neither a quoted text nor a list. -/
theorem IsWord.head {w : String} (h : IsWord w) :
    ∃ c cs, w.toList = c :: cs ∧ isPlain c = true := by
  obtain ⟨c, cs, hcs⟩ := List.exists_cons_of_ne_nil h.1
  exact ⟨c, cs, hcs, List.all_eq_true.1 h.2 c (hcs ▸ List.mem_cons_self)⟩

/-- The text of a nested list is not closed where it starts. -/
theorem Proper.not_closes {x : Form} (h : x.Proper) (r : List Char) : ¬ Closes (x.text ++ r) := by
  intro hcloses
  cases x with
  | word w =>
    obtain ⟨c, cs, hcs, hc⟩ := IsWord.head h
    obtain rfl : c = ')' := hcloses c (by rw [text, hcs]; rfl)
    exact absurd hc (by decide)
  | quoted s => exact absurd (hcloses '"' rfl) (by decide)
  | list xs => exact absurd (hcloses '(' rfl) (by decide)

/-! ### Texts are read in one way -/

/-- A word does not go on like a quoted text or a list. -/
theorem IsWord.text_ne {w : String} (h : IsWord w) {c : Char} (hc : isPlain c = false)
    (r r' : List Char) : (word w).text ++ r ≠ c :: r' := by
  obtain ⟨d, cs, hcs, hd⟩ := IsWord.head h
  rw [text, hcs]
  intro heq
  obtain ⟨rfl, -⟩ := List.cons.inj heq
  rw [hd] at hc
  exact absurd hc (by simp)

/-- A separator may be put in front of joined texts: either both are empty or none is. -/
theorem following_of_joined {sep : Char} {xs ys : List Form} {r r' : List Char} (hx : ProperAll xs)
    (hy : ProperAll ys) (hr : Closes r) (hr' : Closes r')
    (h : joined sep xs ++ r = joined sep ys ++ r') :
    following sep xs ++ r = following sep ys ++ r' := by
  cases xs with
  | nil =>
    cases ys with
    | nil => exact h
    | cons y ys =>
      rw [joined, joined, List.append_assoc, List.nil_append] at h
      exact absurd (h ▸ hr) (hy.1.not_closes _)
  | cons x xs =>
    cases ys with
    | nil =>
      rw [joined, joined, List.append_assoc, List.nil_append] at h
      exact absurd (h.symm ▸ hr') (hx.1.not_closes _)
    | cons y ys => exact congrArg (sep :: ·) h

mutual

/-- **A nested list is the only one with its text**, whatever stands behind it.  A word ends where a
    blank or a parenthesis stands, and a quoted word at its quote, so the text can be split in one
    way only. -/
theorem text_inj : (x y : Form) → x.Proper → y.Proper → ∀ {r r' : List Char}, Ends r → Ends r' →
    x.text ++ r = y.text ++ r' → x = y ∧ r = r'
  | .word w, .word w', hx, hy, r, r', hr, hr', h => by
    obtain ⟨hw, rfl⟩ := run_inj (List.all_eq_true.1 hx.2) (List.all_eq_true.1 hy.2) hr.not_isPlain
      hr'.not_isPlain h
    rw [String.toList_inj] at hw
    exact ⟨congrArg _ hw, rfl⟩
  | .quoted s, .quoted s', hx, hy, r, r', _, _, h => by
    have hrun : s.toList ++ '"' :: r = s'.toList ++ '"' :: r' := by simpa [text] using h
    have hnone : ∀ {cs : List Char}, '"' ∉ cs → ∀ c ∈ cs, decide (c ≠ '"') = true := by
      intro cs hcs c hc
      exact decide_eq_true (ne_of_mem_of_not_mem hc hcs)
    obtain ⟨hs, hrest⟩ := run_inj (hnone hx) (hnone hy) (by simp) (by simp) hrun
    rw [String.toList_inj] at hs
    exact ⟨congrArg _ hs, (List.cons.inj hrest).2⟩
  -- Two lists: what is behind the opening parentheses is equal part by part.
  | .list xs, .list ys, hx, hy, r, r', _, _, h => by
    have hjoined : joined ' ' xs ++ ')' :: r = joined ' ' ys ++ ')' :: r' := by
      simpa [text] using h
    have hr := closes_rparen r
    have hr' := closes_rparen r'
    obtain ⟨rfl, hrest⟩ := following_inj (.inl rfl) xs ys hx hy hr hr'
      (following_of_joined hx hy hr hr' hjoined)
    exact ⟨rfl, (List.cons.inj hrest).2⟩
  -- Forms of different kinds start with different characters.
  | .word _, .quoted _, hx, _, _, _, _, _, h | .word _, .list _, hx, _, _, _, _, _, h =>
    absurd h (IsWord.text_ne hx (by decide) _ _)
  | .quoted _, .word _, _, hy, _, _, _, _, h | .list _, .word _, _, hy, _, _, _, _, h =>
    absurd h.symm (IsWord.text_ne hy (by decide) _ _)
  | .quoted _, .list _, _, _, _, _, _, _, h | .list _, .quoted _, _, _, _, _, _, _, h =>
    absurd (List.cons.inj h).1 (by decide)

/-- The same for several parts with a separator in front of each: a part more would start with a
    separator, where the list is closed. -/
theorem following_inj {sep : Char} (hs : sep = ' ' ∨ sep = '\n') : (xs ys : List Form) →
    ProperAll xs → ProperAll ys → ∀ {r r' : List Char}, Closes r → Closes r' →
    following sep xs ++ r = following sep ys ++ r' → xs = ys ∧ r = r'
  | [], [], _, _, _, _, _, _, h => ⟨rfl, h⟩
  | [], _ :: _, _, _, r, _, hr, _, h => by
    rw [following, List.nil_append] at h
    have hsep : sep = ')' := hr sep (by rw [h]; rfl)
    rcases hs with rfl | rfl <;> exact absurd hsep (by decide)
  | _ :: _, [], _, _, _, r', _, hr', h => by
    rw [following, following, List.nil_append] at h
    have hsep : sep = ')' := hr' sep (by rw [← h]; rfl)
    rcases hs with rfl | rfl <;> exact absurd hsep (by decide)
  | x :: xs, y :: ys, hx, hy, r, r', hr, hr', h => by
    have htail : x.text ++ (following sep xs ++ r) = y.text ++ (following sep ys ++ r') := by
      simpa [following] using h
    obtain ⟨rfl, hrest⟩ := text_inj x y hx.1 hy.1 (ends_following hs hr xs)
      (ends_following hs hr' ys) htail
    obtain ⟨rfl, rfl⟩ := following_inj hs xs ys hx.2 hy.2 hr hr' hrest
    exact ⟨rfl, rfl⟩

end

/-- **Nested lists are the only ones with their joined texts.** -/
theorem joined_inj {sep : Char} (hs : sep = ' ' ∨ sep = '\n') {xs ys : List Form}
    (hx : ProperAll xs) (hy : ProperAll ys) (h : joined sep xs = joined sep ys) : xs = ys := by
  have hclosed : Closes [] := by simp [Closes]
  have hfollowing := following_of_joined hx hy hclosed hclosed (congrArg (· ++ []) h)
  exact (following_inj hs xs ys hx hy hclosed hclosed hfollowing).1

end Form

end Incognita
