import Incognita.CommandLine.Libraries
import Incognita.CommandLine.Program
import Incognita.Log.Line
import Incognita.Text.Utf8

namespace Incognita.Main

/-!
# Main — the program with real files and a real input

All decisions are made by `Task.ofWords`, `Task.run` and `Interactive.respond`. Here
the files that the options name are read beforehand, lines are read and printed.
-/

/-- The error code of the system for reading a directory. -/
def directoryCode : UInt32 := 21

/-- The error code of the system for a name that is too long. -/
def tooLongCode : UInt32 := 36

/-- What is found at a path. -/
def readFile (path : String) : IO File := do
  try
    let bytes ← IO.FS.readBinFile path
    pure (.text (Text.Utf8.decode bytes.toList))
  catch
    | .noFileOrDirectory .. => pure (.refused .absent)
    | .permissionDenied .. => pure (.refused .denied)
    | .inappropriateType _ code _ =>
      pure (if code == directoryCode then .directory else .refused .notDirectory)
    | .invalidArgument _ code _ =>
      pure (.refused (if code == tooLongCode then .tooLong else .invalid))
    | e => throw e

/-- Colours texts red if colours are wanted and there is a terminal to show them. -/
def paint (terminal : Bool) : Paint := fun wanted => CommandLine.ansi (wanted && terminal)

/-- What the program leaves to others. -/
def libraries : IO Libraries := do
  pure ⟨CommandLine.getopt, paint (← (← IO.getStdout).isTty)⟩

/-- What the program sees, as far as its command line asks for it. -/
def look (argv : List String) : IO Surroundings := do
  let dir := (← IO.currentDir).toString
  let paths := match Options.parse CommandLine.getopt argv with
    | .ok o => o.paths dir
    | .error _ => []
  let found ← paths.mapM fun path => do pure (path, ← readFile path)
  pure ⟨dir, fun path => (found.lookup path).getD (.refused .absent)⟩

/-- Prints a line. -/
def printLine : Line → IO Unit
  | .out text => do
    let stdout ← IO.getStdout
    stdout.putStr text
    stdout.flush
  | .err text => do (← IO.getStderr).putStr text

/-- Writes a line, or an entry of the log with the time. -/
def write : Output → IO Unit
  | .line l => printLine l
  | .entry e => do
    let stamp := Text.quote (Text.ofNat (← IO.monoMsNow))
    match e.line stamp with
    | some text => printLine (.err text)
    | none => pure ()

/-- The next line of the input without its end, if there is one. -/
def nextLine : IO (Option String) := do
  let line ← (← IO.getStdin).getLine
  if line.isEmpty then pure none
  else pure (some (if line.endsWith "\n" then (line.dropEnd 1).toString else line))

/-- Answers lines until one of them ends the conversation. -/
partial def converse (o : Options) (s : Session) : IO UInt32 := do
  printLine Interactive.prompt
  match (← nextLine).map Interactive.dropReturn with
  | none =>
    printLine Interactive.farewell
    pure 0
  | some line =>
    if Interactive.isExitLine line then
      printLine Interactive.farewell
      pure 0
    else
      match Interactive.respond o.tree s line with
      | none => pure 1
      | some (s, written) =>
        written.forM write
        converse o s

/-- Runs the program with a command line. -/
def run (argv : List String) : IO UInt32 := do
  let lib ← libraries
  let w ← look argv
  match Task.ofWords lib w argv with
  | .interactive o s =>
    Interactive.greeting.forM printLine
    converse o (.ofSettings lib.paint s)
  | task =>
    match task.run lib w [] with
    | none => pure 1
    | some ended =>
      ended.written.forM write
      pure (UInt32.ofNat ended.code)

end Incognita.Main

/-- The program. Its name is put in front of the words behind it. -/
def main (words : List String) : IO UInt32 := Incognita.Main.run ("cod" :: words)
