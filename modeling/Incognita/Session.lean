import Incognita.Evaluator
import Incognita.Settings
import Incognita.Tree.Outline
import Incognita.Tree.Parser

namespace Incognita

/-!
# Session — sources run one after another

The sources of a session run in one environment, so what one binds the next ones
see. They are run by one evaluator, which the session keeps between them. A source
with faults is not evaluated.

* `Line` — a line that was printed, and where to;
* `Output` — a line or an entry of the log;
* `Paint` — what colours a text red;
* `Session` — the evaluator between two sources, and how sources are run;
* `Turn` — what running one source gave: a result, the session after it, and what
  was printed and noted down;
* `Session.run` — the value of a source;
* `Session.print` — prints the value of a source, or its faults;
* `Session.tree` — the tree of a source;
* `Session.execute` — prints one of the two and gives an exit code.

What evaluates a source has a twin that takes the bound on the nesting of evaluations:
`Session.runWithin`, `Session.printWithin` and `Session.executeWithin`.
-/

/-- A line that was printed, to the output or to the one for errors. -/
inductive Line where
  | out (text : String)
  | err (text : String)
  deriving DecidableEq, Repr

/-- What is written for the one who runs the program. How an entry of the log is worded is
    up to the logger. -/
inductive Output where
  | line (l : Line)
  | entry (e : Log.Entry)

/-- Colours a text red, given whether colours are wanted. It comes from a library, which
    may also look whether anything is there to show them. -/
abbrev Paint := Bool → String → String

/-- How sources are run, and the evaluator that runs them: the store it works on, how many
    calls are under way, and the environment it is in. Between two sources it is in none. -/
structure Session where
  limit : Nat
  level : Log.Level
  red : String → String
  store : Store
  depth : Nat := 0
  env : Option Env := none

/-- What running a source gave. -/
structure Turn (α : Type) where
  result : α
  session : Session
  log : List Log.Entry := []
  printed : List Line := []

namespace Turn

/-- The entries of a turn that the session shows. -/
def shownLog {α : Type} (t : Turn α) : List Log.Entry := Log.shown t.session.level t.log

/-- Everything that is written during a turn, entries of the log first. -/
def outputs {α : Type} (t : Turn α) : List Output :=
  t.shownLog.map .entry ++ t.printed.map .line

/-- The same turn with another result and other lines printed. -/
def answer {α β : Type} (t : Turn α) (result : β) (printed : List Line) : Turn β :=
  ⟨result, t.session, t.log, printed⟩

end Turn

namespace Session

/-- A session in which nothing has run. -/
def ofSettings (paint : Paint) (settings : Settings) : Session where
  limit := settings.limit
  level := settings.level
  red := paint settings.color
  store := .initial

/-- The evaluator of a session. -/
def evaluator (s : Session) : Evaluator := ⟨s.env, s.depth, s.limit, s.store⟩

/-- The entry for a source that was read. -/
def parsedEntry (p : Parsed) : Log.Entry := .parsed p.diagnostics.length p.program.stmts.length

/-- Evaluates a program that was read without faults, under a bound on the nesting of
    evaluations. There is no turn when the evaluation does not end. -/
def evaluateWithin (fuel : Nat) (s : Session) (p : Parsed) : Option (Turn Result) :=
  match s.evaluator.evaluate fuel (.program p.program) .root with
  | .done r m =>
    some {
      result := r
      session := { s with env := m.env, depth := m.depth, store := { m.store with calls := [] } }
      log := parsedEntry p :: m.store.calls.reverse.map Log.Entry.called }
  | _ => none

/-- Evaluates a program that was read without faults. -/
def evaluate (s : Session) (p : Parsed) : Option (Turn Result) := s.evaluateWithin Eval.ample p

/-- The turn of a source with faults. -/
def rejected {α : Type} (s : Session) (p : Parsed) (result : α) (printed : List Line) : Turn α :=
  ⟨result, s, [parsedEntry p], printed⟩

/-- The value of a source, or its faults in one line, under a bound on the nesting of
    evaluations. -/
def runWithin (fuel : Nat) (s : Session) (source : String) :
    Option (Turn (Except String Result)) :=
  let p := parse source
  match p.error? with
  | some message => some (s.rejected p (.error message) [])
  | none => do
    let t ← s.evaluateWithin fuel p
    some { result := .ok t.result
           session := t.session
           log := t.log ++ [.evaluated (t.result.map Value.kind)] }

/-- The value of a source, or its faults in one line. -/
def run (s : Session) (source : String) : Option (Turn (Except String Result)) :=
  s.runWithin Eval.ample source

/-- The lines that report the faults of a source, under a heading in red. -/
def faultLines (s : Session) (p : Parsed) : List Line :=
  .err (s.red "Errores de análisis:" ++ "\n") ::
    p.diagnostics.map fun d => .err ("\t" ++ d.message ++ "\n")

/-- Prints the value of a source, if it has one, or its faults, under a bound on the nesting
    of evaluations. An error is printed in red. The result tells whether there was neither a
    fault nor an error. -/
def printWithin (fuel : Nat) (s : Session) (source : String) : Option (Turn Bool) :=
  let p := parse source
  match p.error? with
  | some _ => some (s.rejected p false (s.faultLines p))
  | none => do
    let t ← s.evaluateWithin fuel p
    match t.result with
    | none => some (t.answer true [])
    | some v => do
      let text ← v.inspect
      if v.isError then some (t.answer false [.out (s.red text ++ "\n")])
      else some (t.answer true [.out (text ++ "\n")])

/-- Prints the value of a source, if it has one, or its faults. -/
def print (s : Session) (source : String) : Option (Turn Bool) := s.printWithin Eval.ample source

/-- The tree of a source, or its faults in one line. -/
def tree (s : Session) (source : String) : Option (Turn (Except String String)) :=
  let p := parse source
  match p.error? with
  | some message => some (s.rejected p (.error message) [])
  | none => do
    let outline ← p.program.outline
    some (s.rejected p (.ok outline) [])

/-- Prints the tree or the value of a source, and gives the exit code, under a bound on the
    nesting of evaluations. -/
def executeWithin (fuel : Nat) (s : Session) (asTree : Bool) (source : String) :
    Option (Turn Nat) :=
  if asTree then do
    let t ← s.tree source
    match t.result with
    | .ok tree => some (t.answer 0 [.out (tree ++ "\n")])
    | .error message => some (t.answer 1 [.err (message ++ "\n")])
  else do
    let t ← s.printWithin fuel source
    some (t.answer (if t.result then 0 else 1) t.printed)

/-- Prints the tree or the value of a source, and gives the exit code. -/
def execute (s : Session) (asTree : Bool) (source : String) : Option (Turn Nat) :=
  s.executeWithin Eval.ample asTree source

/-- The value of a name. -/
def get? (s : Session) (name : String) : Option Value := s.store.get? Env.root.path name

/-- Binds a name. -/
def set (s : Session) (name : String) (v : Value) : Session :=
  { s with store := s.store.set Env.root.scope name v }

end Session

/-- Prints the value of a source, or its faults, in a session of its own, without colours. -/
def printSource (paint : Paint) (source : String) : Option (Turn Bool) :=
  (Session.ofSettings paint { Settings.default with color := false }).print source

end Incognita
