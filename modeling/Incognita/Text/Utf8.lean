namespace Incognita.Text

/-!
# Text — reading UTF-8

Bytes that are not UTF-8 must still give a text: every byte that does not belong
to a well-formed character is read as one replacement character.

* `Utf8.first` — the first character of a byte sequence and the bytes after it;
* `Utf8.decode` — the text of a byte sequence.
-/

namespace Utf8

/-- Stands for a byte that is part of no character. -/
def replacement : Char := '\uFFFD'

/-- A continuation byte that lies between `lo` and `hi`. -/
def within (lo hi b : UInt8) : Bool := lo ≤ b && b ≤ hi

/-- The payload of a byte: its value below the marker bits `mark`. -/
def payload (b mark : UInt8) : Nat := b.toNat - mark.toNat

/-- The bounds of the second byte after the lead byte `a`: the four lead bytes at
    the ends of the code space and around the surrogates have narrower ones. -/
def secondBounds (a : UInt8) : UInt8 × UInt8 :=
  if a == 0xE0 then (0xA0, 0xBF)
  else if a == 0xED then (0x80, 0x9F)
  else if a == 0xF0 then (0x90, 0xBF)
  else if a == 0xF4 then (0x80, 0x8F)
  else (0x80, 0xBF)

/-- The character that the bytes `a :: rest` start with, and how many bytes of
    `rest` it takes. A lead byte without the continuation it needs, and a byte that
    leads no character, is the replacement character and takes none. -/
def first (a : UInt8) (rest : List UInt8) : Char × Nat :=
  if a < 0x80 then (Char.ofNat a.toNat, 0)
  else
    let (lo, hi) := secondBounds a
    match rest with
    | b :: rest₁ =>
      if !within lo hi b then (replacement, 0)
      else if within 0xC2 0xDF a then
        (Char.ofNat (payload a 0xC0 * 64 + payload b 0x80), 1)
      else match rest₁ with
        | c :: rest₂ =>
          if !within 0x80 0xBF c then (replacement, 0)
          else if within 0xE0 0xEF a then
            (Char.ofNat ((payload a 0xE0 * 64 + payload b 0x80) * 64 + payload c 0x80), 2)
          else match rest₂ with
            | d :: _ =>
              if within 0xF0 0xF4 a && within 0x80 0xBF d then
                (Char.ofNat (((payload a 0xF0 * 64 + payload b 0x80) * 64 + payload c 0x80) * 64
                  + payload d 0x80), 3)
              else (replacement, 0)
            | [] => (replacement, 0)
        | [] => (replacement, 0)
    | [] => (replacement, 0)

/-- The characters of a byte sequence. -/
def chars : List UInt8 → List Char
  | [] => []
  | a :: rest => (first a rest).1 :: chars (rest.drop (first a rest).2)
termination_by bytes => bytes.length
decreasing_by simp only [List.length_drop, List.length_cons]; omega

/-- The text of a byte sequence. -/
def decode (bytes : List UInt8) : String := String.ofList (chars bytes)

end Utf8

end Incognita.Text
