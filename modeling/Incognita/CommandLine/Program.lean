import Incognita.CommandLine.Interactive
import Incognita.CommandLine.Options
import Incognita.Settings.Load

namespace Incognita

/-!
# CommandLine — the whole program

* `Libraries` — what the program leaves to others;
* `Surroundings` — what the program sees besides its arguments and its input;
* `Ended` — what the program printed, and its exit code;
* `Task`, `Task.ofWords` — what the command line asks for;
* `Task.run` — doing it;
* `CommandLine.run` — the program from its arguments to its end.
-/

/-- What the program leaves to others: finding options, and colouring text. -/
structure Libraries where
  getopts : CommandLine.Getopts
  paint : Paint

/-- What the program sees of its surroundings: the directory it runs in, and what is found
    at a path. -/
structure Surroundings where
  dir : String
  files : String → File

/-- What the program wrote, and its exit code. -/
structure Ended where
  code : Nat
  written : List Output

namespace CommandLine

/-- The help text. -/
def usage : String :=
  "Usage: cod [-c config.yaml] [-d] [-t] [-e code | file.cod]\n\n" ++
  "Without a file or -e an interactive session is started.\n\n" ++
  "options:\n" ++
  "  -c FILE  read settings from a YAML file\n" ++
  "  -e CODE  evaluate CODE and exit\n" ++
  "  -t       print the syntax tree instead of evaluating\n" ++
  "  -d       debug logging\n" ++
  "  -h       show this help\n"

end CommandLine

namespace Options

/-- The settings that the options ask for. -/
def settings (o : Options) (w : Surroundings) : Except Settings.LoadFault Settings :=
  if o.config.isEmpty then .ok (o.adjust .default)
  else (Settings.load w.files w.dir o.config).map o.adjust

/-- The source that the options ask for, or the entry for a file that cannot be read. -/
def source (o : Options) (w : Surroundings) : Except Log.Entry String :=
  if o.file.isEmpty then .ok o.code
  else
    let path := Path.resolve w.dir o.file
    match w.files path with
    | .text content => .ok content
    | .directory =>
      .error (.unreadable ("read " ++ path ++ ": read " ++ path ++ ": is a directory") o.file)
    | .refused reason => .error (.unreadable ("open " ++ path ++ ": " ++ reason.message) o.file)

/-- The paths of the files that the options ask for. -/
def paths (o : Options) (dir : String) : List String :=
  ([o.config, o.file].filter (!·.isEmpty)).map (Path.resolve dir)

end Options

/-- What the command line asks for. -/
inductive Task where
  /-- To end at once. -/
  | stop (ended : Ended)
  /-- To run one source. -/
  | batch (o : Options) (s : Settings)
  /-- To run the lines of the input. -/
  | interactive (o : Options) (s : Settings)

namespace Task

/-- What a command line asks for. -/
def ofWords (lib : Libraries) (w : Surroundings) (argv : List String) : Task :=
  match Options.parse lib.getopts argv with
  | .error m => .stop ⟨2, [.line (.err (m.message ++ "\n")), .line (.err CommandLine.usage)]⟩
  | .ok o =>
    if o.help then .stop ⟨0, [.line (.out CommandLine.usage)]⟩
    else
      match o.settings w with
      | .error f => .stop ⟨1, [.line (.err (f.message ++ "\n"))]⟩
      | .ok s => if o.isInteractive then .interactive o s else .batch o s

/-- Runs one source. There is no end when its evaluation does not end. -/
def runSource (lib : Libraries) (w : Surroundings) (o : Options) (s : Settings) : Option Ended :=
  match o.source w with
  | .error entry => some ⟨1, (Log.shown s.level [entry]).map .entry⟩
  | .ok source => do
    let t ← (Session.ofSettings lib.paint s).execute o.tree source
    some ⟨t.result, t.outputs⟩

/-- Does what is asked for, with the lines of the input. -/
def run (lib : Libraries) (w : Surroundings) (lines : List String) : Task → Option Ended
  | stop ended => some ended
  | batch o s => runSource lib w o s
  | interactive o s => do
    let written ← Interactive.converse o.tree (.ofSettings lib.paint s) lines
    some ⟨0, Interactive.greeting.map .line ++ written⟩

end Task

/-- The program with its command line and the lines of its input. -/
def CommandLine.run (lib : Libraries) (w : Surroundings) (argv lines : List String) :
    Option Ended :=
  (Task.ofWords lib w argv).run lib w lines

end Incognita
