import Incognita.Session
import Incognita.Text.Blank

namespace Incognita.Interactive

/-!
# Interactive — sources typed in line by line

Every line is a source of one session. Blank lines are passed over, and the word
for leaving ends the conversation. What is printed goes to the output, also what
would go to the one for errors elsewhere.

* `isExitLine` — the lines that end the conversation;
* `respond` — the session after a line, and what is written for it;
* `converse` — everything that is written for a list of lines.
-/

/-- The word that ends the conversation. -/
def exitWord : String := "salir"

/-- Whether a line ends the conversation. -/
def isExitLine (line : String) : Bool := Text.trim line == exitWord

/-- What is printed before the first line. -/
def greeting : List Line :=
  [.out "¡Bienvenido!\n", .out ("Ingresa '" ++ exitWord ++ "' para salir.\n")]

/-- What is printed in front of each line. -/
def prompt : Line := .out ">>>"

/-- What is printed after the last line. -/
def farewell : Line := .out "¡Hasta luego!\n"

/-- A line without the carriage return at its end. -/
def dropReturn (line : String) : String :=
  match line.toList.reverse with
  | '\r' :: cs => String.ofList cs.reverse
  | _ => line

/-- The same line, printed to the output. -/
def toOutput : Line → Line
  | .out text => .out text
  | .err text => .out text

/-- The session after a line, and what is written for it, under a bound on the nesting of
    evaluations. -/
def respondWithin (fuel : Nat) (asTree : Bool) (s : Session) (line : String) :
    Option (Session × List Output) :=
  if (Text.trim line).isEmpty then some (s, [])
  else do
    let t ← s.executeWithin fuel asTree line
    some (t.session, { t with printed := t.printed.map toOutput }.outputs)

/-- The session after a line, and what is written for it. -/
def respond (asTree : Bool) (s : Session) (line : String) : Option (Session × List Output) :=
  respondWithin Eval.ample asTree s line

/-- What is written for lines, from the prompt of the first one on. -/
def converse (asTree : Bool) (s : Session) : List String → Option (List Output)
  | [] => some [.line prompt, .line farewell]
  | line :: lines =>
    let line := dropReturn line
    if isExitLine line then some [.line prompt, .line farewell]
    else do
      let (s, written) ← respond asTree s line
      let more ← converse asTree s lines
      some (.line prompt :: (written ++ more))

end Incognita.Interactive
