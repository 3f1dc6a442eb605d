import Incognita.Token
import Incognita.Text.Blank
import Incognita.Text.Letter

namespace Incognita

open Text

/-!
# Token — cutting a source into tokens

Blanks separate tokens and are otherwise skipped. A token takes as many
characters as it can.

* `Token.scan` — the token that starts with a given character, and the rest;
* `Token.next?` — the first token of a source after its blanks;
* `tokenize` — all tokens of a source, without an end marker;
* `tokenizeThrough` — the same with end markers behind them.
-/

namespace Token

/-- The kind of a character that is a token by itself and starts no other. -/
def single? : Char → Option Kind
  | '(' => some .lparen
  | ')' => some .rparen
  | '{' => some .lbrace
  | '}' => some .rbrace
  | ',' => some .comma
  | ';' => some .semicolon
  | '+' => some .plus
  | '-' => some .minus
  | '*' => some .asterisk
  | '/' => some .slash
  | _ => none

/-- A character that makes one token together with a second one and another token
    without it. -/
structure Pairing where
  second : Char
  together : Kind
  alone : Kind

/-- How a character pairs, if it does. An ampersand and a bar are no token alone. -/
def pairing? : Char → Option Pairing
  | '!' => some ⟨'=', .notEq, .bang⟩
  | '=' => some ⟨'=', .eq, .assign⟩
  | '<' => some ⟨'=', .lte, .lt⟩
  | '>' => some ⟨'=', .gte, .gt⟩
  | '&' => some ⟨'&', .and, .illegal⟩
  | '|' => some ⟨'|', .or, .illegal⟩
  | _ => none

/-- The token of the kind `k` spelled by `cs`. -/
def ofChars (k : Kind) (cs : List Char) : Token := ⟨k, String.ofList cs⟩

/-- The token of a character that pairs, in front of `rest`. -/
def scanPair (c : Char) (p : Pairing) : List Char → Token × List Char
  | [] => (ofChars p.alone [c], [])
  | d :: rest =>
    if d = p.second then (ofChars p.together [c, d], rest)
    else (ofChars p.alone [c], d :: rest)

/-- The token of an opening quote in front of `rest`: a string up to the next
    quote, or, when there is none, all of the source. -/
def scanString (rest : List Char) : Token × List Char :=
  match rest.dropWhile (· ≠ '"') with
  | [] => (ofChars .illegal ('"' :: rest), [])
  | _ :: after => (ofChars .string (rest.takeWhile (· ≠ '"')), after)

/-- The digits that start with `c`. -/
def scanNumber (c : Char) (rest : List Char) : Token × List Char :=
  (ofChars .int (c :: rest.takeWhile isDigit), rest.dropWhile isDigit)

/-- The word that starts with `c`. -/
def scanWord (c : Char) (rest : List Char) : Token × List Char :=
  let word := String.ofList (c :: rest.takeWhile isWordPart)
  (⟨.ofWord word, word⟩, rest.dropWhile isWordPart)

/-- The token that starts with `c` in front of `rest`, and what follows it. -/
def scan (c : Char) (rest : List Char) : Token × List Char :=
  match single? c with
  | some k => (ofChars k [c], rest)
  | none =>
    match pairing? c with
    | some p => scanPair c p rest
    | none =>
      if c = '"' then scanString rest
      else if isDigit c then scanNumber c rest
      else if isWordStart c then scanWord c rest
      else (ofChars .illegal [c], rest)

/-- The first token of a source and what follows it, or nothing when only blanks
    are left. -/
def next? (source : List Char) : Option (Token × List Char) :=
  match source.dropWhile isBlank with
  | [] => none
  | c :: rest => some (scan c rest)

/-! ### A token takes at least one character -/

theorem length_dropWhile_le (p : Char → Bool) (cs : List Char) :
    (cs.dropWhile p).length ≤ cs.length := by
  induction cs with
  | nil => simp
  | cons c cs ih =>
    rw [List.dropWhile_cons]
    split
    · simp only [List.length_cons]; omega
    · exact Nat.le_refl _

theorem length_scanPair (c : Char) (p : Pairing) (rest : List Char) :
    (scanPair c p rest).2.length ≤ rest.length := by
  cases rest with
  | nil => simp [scanPair]
  | cons d rest =>
    simp only [scanPair]
    split <;> simp

theorem length_scanString (rest : List Char) : (scanString rest).2.length ≤ rest.length := by
  have h := length_dropWhile_le (· ≠ '"') rest
  simp only [scanString]
  split
  · simp
  · next heq => rw [heq, List.length_cons] at h; simp only; omega

theorem length_scan (c : Char) (rest : List Char) : (scan c rest).2.length ≤ rest.length := by
  simp only [scan]
  split
  · exact Nat.le_refl _
  · split
    · exact length_scanPair c _ rest
    · split
      · exact length_scanString rest
      · split
        · exact length_dropWhile_le isDigit rest
        · split
          · exact length_dropWhile_le isWordPart rest
          · exact Nat.le_refl _

/-- What follows the first token is shorter than the source. -/
theorem length_next? {source rest : List Char} {t : Token} (h : next? source = some (t, rest)) :
    rest.length < source.length := by
  have hle := length_dropWhile_le isBlank source
  simp only [next?] at h
  split at h
  · simp at h
  · next c r heq =>
    have hs := length_scan c r
    rw [Option.some.injEq] at h
    rw [heq, List.length_cons] at hle
    rw [h] at hs
    simp only at hs
    omega

end Token

/-- The tokens of a source, in order. -/
def tokenize (source : List Char) : List Token :=
  match _h : Token.next? source with
  | none => []
  | some (t, rest) => t :: tokenize rest
termination_by source.length
decreasing_by exact Token.length_next? _h

/-- The tokens of a source up to the first end marker, and `extra` more readings
    after it, each of which is an end marker again. -/
def tokenizeThrough (source : List Char) (extra : Nat) : List Token :=
  tokenize source ++ List.replicate (extra + 1) Token.eof

end Incognita
