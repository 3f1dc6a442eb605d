import Incognita.Settings

namespace Incognita

/-!
# CommandLine — the words of the command line

A library reads the options: it is told which letters are options and which of them
take a value, and says which ones it has found and where the words behind them start.
What is left are the operands.

* `CommandLine.Found`, `CommandLine.Getopts` — the library;
* `CommandLine.spec` — what it is told;
* `CommandLine.Misuse` — what can be wrong with a command line;
* `Options` — what the command line asks for: the last value of each option with
  one, whether each flag occurs, and the source file;
* `Options.parse` — the options of a command line.
-/

namespace CommandLine

/-- What is found on a command line: the options with their values, empty for those without
    one, and the index of the first word behind them. -/
structure Found where
  options : List (Char × String)
  next : Nat
  deriving DecidableEq, Repr

/-- The library: from the words of a command line, the program's name first, and the letters
    of the options, each that takes a value with a colon behind it, to what is found or to a
    message. -/
abbrev Getopts := List String → String → Except String Found

/-- The options of this program. -/
def spec : String := "c:e:tdh"

/-- What is wrong with a command line. -/
inductive Misuse where
  | badOptions (message : String)
  | tooManyFiles (count : Nat)
  | codeAndFile
  deriving DecidableEq, Repr

/-- The wording of a misuse. -/
def Misuse.message : Misuse → String
  | badOptions message => message
  | tooManyFiles n => "expected at most one source file, got " ++ Text.ofNat n
  | codeAndFile => "-e cannot be combined with a source file"

end CommandLine

/-- What the command line asks for. An empty text stands for nothing. -/
structure Options where
  config : String := ""
  code : String := ""
  file : String := ""
  tree : Bool := false
  debug : Bool := false
  help : Bool := false
  deriving DecidableEq, Repr

namespace Options

open CommandLine

/-- The options after one more. The library finds none but those of this program, so any
    letter that is not looked for asks for help. -/
def add (o : Options) (found : Char × String) : Options :=
  match found.1 with
  | 'c' => { o with config := found.2 }
  | 'e' => { o with code := found.2 }
  | 't' => { o with tree := true }
  | 'd' => { o with debug := true }
  | _ => { o with help := true }

/-- The options with the operands, of which there may be one unless there is code. -/
def operands (o : Options) : List String → Except Misuse Options
  | [] => .ok o
  | [file] => if o.code.isEmpty then .ok { o with file } else .error .codeAndFile
  | files => .error (.tooManyFiles files.length)

/-- The options of a command line, the program's name being its first word. -/
def parse (getopts : Getopts) (argv : List String) : Except Misuse Options :=
  match getopts argv spec with
  | .error message => .error (.badOptions message)
  | .ok found => (found.options.foldl add {}).operands (argv.drop found.next)

/-- The settings with the level that the options ask for. -/
def adjust (o : Options) (s : Settings) : Settings :=
  if o.debug then { s with logLevel := Log.Level.debug.name } else s

/-- Whether there is no source, so that lines are to be read. -/
def isInteractive (o : Options) : Bool := o.code.isEmpty && o.file.isEmpty

end Options

end Incognita
