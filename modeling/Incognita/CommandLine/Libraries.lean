import Incognita.CommandLine.Options
import Incognita.Session

namespace Incognita.CommandLine

/-!
# CommandLine — what the libraries are taken to do

The program leaves two things to libraries: to find the options on the command line and
to colour texts. Only the program as it is run needs them, so what is said about the
program is said for every library that keeps to what it promises.

An option is a letter after a dash. Letters can share a dash, an option with a value
takes what is left of its word or, when nothing is, the whole next word. The options end
behind `--`, or at the first word that is empty, is a lone dash or does not start with
one.

* `takesValue?` — whether a letter is an option, and takes a value;
* `cluster` — the options that share a dash;
* `scan` — the options at the front of some words, and how many words they take;
* `getopt` — the options of a command line;
* `ansi` — a text in red, as terminals show it.
-/

/-- Whether a letter is an option, and takes a value. -/
def takesValue? : List Char → Char → Option Bool
  | [], _ => none
  | d :: spec, c =>
    if d = c ∧ c ≠ ':' then some (spec.head? == some ':') else takesValue? spec c

/-- The message for a letter that is no option. -/
def unknownOption (c : Char) : String := "cod: unknown option -" ++ String.ofList [c]

/-- The message for an option without its value. -/
def missingValue (c : Char) : String := "cod: expected argument for -" ++ String.ofList [c]

/-- The options in a word after its dash. When the last one still needs a value, it comes
    second. -/
def cluster (spec : List Char) : List Char → Except String (List (Char × String) × Option Char)
  | [] => .ok ([], none)
  | c :: cs =>
    match takesValue? spec c with
    | none => .error (unknownOption c)
    | some false => (cluster spec cs).map fun (os, needy) => ((c, "") :: os, needy)
    | some true => .ok (if cs.isEmpty then ([], some c) else ([(c, String.ofList cs)], none))

/-- Whether a word has options in it. -/
def isOptionWord (w : String) : Bool :=
  match w.toList with
  | '-' :: _ :: _ => true
  | _ => false

/-- More options in front of those that are found, and more words in front of theirs. -/
def Found.behind (os : List (Char × String)) (words : Nat) (f : Found) : Found :=
  ⟨os ++ f.options, words + f.next⟩

/-- The options at the front of a list of words, and how many words they take. -/
def scan (spec : List Char) : List String → Except String Found
  | [] => .ok ⟨[], 0⟩
  | w :: ws =>
    if w == "--" then .ok ⟨[], 1⟩
    else if isOptionWord w then
      match cluster spec (w.toList.drop 1), ws with
      | .error m, _ => .error m
      | .ok (os, none), ws => (scan spec ws).map (.behind os 1)
      | .ok (_, some c), [] => .error (missingValue c)
      | .ok (os, some c), v :: ws => (scan spec ws).map (.behind (os ++ [(c, v)]) 2)
    else .ok ⟨[], 0⟩

/-- The options of a command line. -/
def getopt : Getopts := fun argv spec => (scan spec.toList (argv.drop 1)).map (.behind [] 1)

/-- Colours texts red with the escape codes of terminals, if colours are wanted. -/
def ansi : Paint := fun wanted text =>
  if wanted then "\x1b[31m" ++ text ++ "\x1b[0m" else text

end Incognita.CommandLine
