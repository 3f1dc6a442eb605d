import Incognita.Files
import Incognita.Settings.Document

namespace Incognita.Settings

/-!
# Settings — the file they are read from

* `LoadFault` — why settings could not be read, with its wording;
* `load` — the settings of a file. They have no fault.
-/

/-- Why settings could not be read. -/
inductive LoadFault where
  | noPath
  | refused (path : String) (reason : File.Refusal)
  | directory (path : String)
  | document (path : String) (fault : DocumentFault)
  | invalid (path : String) (fault : Fault)
  deriving DecidableEq, Repr

/-- The wording of a fault. -/
def LoadFault.message : LoadFault → String
  | noPath => "config: empty path"
  | refused path reason =>
    "config: open " ++ path ++ ": open " ++ path ++ ": " ++ reason.message
  | directory path =>
    "config: parse " ++ path ++ ": yaml: input error: read " ++ path ++ ": is a directory"
  | document path fault => "config: parse " ++ path ++ ": " ++ fault.message
  | invalid path fault => "config: " ++ path ++ ": " ++ fault.message

/-- The settings of the file at `path`, as it is seen from the directory `dir`, where
    `files` tells what is found at a path. -/
def load (files : String → File) (dir path : String) : Except LoadFault Settings :=
  if path.isEmpty then .error .noPath
  else
    let path := Path.resolve dir path
    match files path with
    | .refused reason => .error (.refused path reason)
    | .directory => .error (.directory path)
    | .text content =>
      match ofText content with
      | .error f => .error (.document path f)
      | .ok s =>
        match s.fault? with
        | some f => .error (.invalid path f)
        | none => .ok { s with path }

end Incognita.Settings
