namespace Incognita.Text

/-!
# Text — sets of characters given by code point ranges

A character class of a standard is a sorted list of closed code point ranges.

* `Ranges.contains` — membership of a code point, with an early exit that the
  order of the list allows;
* `Ranges.contains_nil`, `Ranges.contains_cons` — its unfolding lemmas.
-/

/-- Closed ranges of code points, lowest first. -/
abbrev Ranges := List (Nat × Nat)

namespace Ranges

/-- Whether `n` lies in one of the ranges. The ranges are sorted, so the search
    ends at the first one that starts above `n`. -/
def contains : Ranges → Nat → Bool
  | [], _ => false
  | (lo, hi) :: rest, n => if n < lo then false else if n ≤ hi then true else contains rest n

@[simp] theorem contains_nil (n : Nat) : contains [] n = false := rfl

theorem contains_cons (lo hi : Nat) (rest : Ranges) (n : Nat) :
    contains ((lo, hi) :: rest) n =
      if n < lo then false else if n ≤ hi then true else contains rest n := rfl

end Ranges

end Incognita.Text
