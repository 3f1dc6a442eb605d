namespace Incognita

/-!
# Files — paths and what is found there

* `Path.clean` — the shortest path to the same place;
* `Path.join` — a path with one more part;
* `Path.resolve` — a path as it is seen from a directory;
* `File` — what is found at a path;
* `Files` — texts by their paths;
* `Files.entry` — what stands at a path among them;
* `Files.get` — what is found when a path is followed part by part.
-/

namespace Path

/-- The parts of a path, the last one first, after one more part. A part `..` takes
    the last one away, and is kept when there is none to take and the path is not
    rooted. -/
def addPart (rooted : Bool) (parts : List String) (part : String) : List String :=
  if part == "" || part == "." then parts
  else if part == ".." then
    match parts with
    | p :: rest => if p == ".." then ".." :: parts else rest
    | [] => if rooted then [] else [".."]
  else part :: parts

/-- Whether a path does not depend on a directory. -/
def isRooted (path : String) : Bool := path.toList.head? == some '/'

/-- The shortest path to the same place. -/
def clean (path : String) : String :=
  let rooted := isRooted path
  let parts := ((path.splitOn "/").foldl (addPart rooted) []).reverse
  let joined := "/".intercalate parts
  if rooted then "/" ++ joined else if joined.isEmpty then "." else joined

/-- The path that one more part leads to. -/
def join (path part : String) : String :=
  if path.isEmpty || path == "/" then path ++ part else path ++ "/" ++ part

/-- A path as it is seen from the directory `dir`. -/
def resolve (dir path : String) : String :=
  if isRooted path then clean path else clean (dir ++ "/" ++ path)

end Path

/-- Why a file could not be opened. -/
inductive File.Refusal where
  | absent
  | notDirectory
  | denied
  | tooLong
  | invalid
  deriving DecidableEq, Repr

/-- The wording of a refusal. -/
def File.Refusal.message : File.Refusal → String
  | absent => "no such file or directory"
  | notDirectory => "not a directory"
  | denied => "permission denied"
  | tooLong => "file name too long"
  | invalid => "invalid argument"

/-- What is found at a path. -/
inductive File where
  | text (content : String)
  | directory
  | refused (reason : File.Refusal)
  deriving DecidableEq, Repr

/-- Texts by their paths. Every path in front of one of them is a directory. -/
structure Files where
  texts : List (String × String)

namespace Files

/-- Whether the path `inner` leads through the path `outer`. -/
def leadsThrough (outer inner : String) : Bool :=
  outer == "/" || (outer ++ "/").toList.isPrefixOf inner.toList

/-- What stands at a path, of which `dir` is a directory. -/
def entry (fs : Files) (dir path : String) : File :=
  match fs.texts.lookup path with
  | some content => .text content
  | none =>
    if path == dir || fs.texts.any (fun t => leadsThrough path t.1) || leadsThrough path dir then
      .directory
    else .refused .absent

/-- The most bytes that a part of a path can have. -/
def maxPart : Nat := 255

/-- The least number of bytes that no path can have. -/
def pathLimit : Nat := 4096

/-- What is found when more parts follow the path `place`, which leads to `found`. -/
def follow (fs : Files) (dir place : String) (found : File) : List String → File
  | [] => found
  | part :: parts =>
    match found with
    | .refused reason => .refused reason
    | .text _ => .refused .notDirectory
    | .directory =>
      if maxPart < part.utf8ByteSize then .refused .tooLong
      else
        let next := Path.join place part
        fs.follow dir next (fs.entry dir next) parts

/-- What is found at a path, of which `dir` is a directory. -/
def get (fs : Files) (dir path : String) : File :=
  if path.toList.contains '\x00' then .refused .invalid
  else if pathLimit ≤ path.utf8ByteSize then .refused .tooLong
  else
    let start := if Path.isRooted path then "/" else ""
    fs.follow dir start .directory ((path.splitOn "/").filter (· ≠ ""))

end Files

end Incognita
