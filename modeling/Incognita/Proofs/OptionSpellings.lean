import Mathlib.Data.List.Induction
import Incognita.CommandLine.Libraries

namespace Incognita

/-!
# CommandLine — the spellings of the options

The same options can be written in many ways: flags can share a dash, an option with a value can
follow them behind it, and its value can stand in the same word or be the next one, whatever that
looks like.  A `Group` is one such dash, with the value that it takes along.

Which options a command line has is for the library to say that is given to `Options.parse`, of
which nothing is known but that it scans words as POSIX has it.

* `CommandLine.Getopts.Posix` — what POSIX says of one word, for a library that scans this way;
* `CommandLine.Group` — flags behind one dash, and the option that may take a value behind them;
* `CommandLine.Getopts.Posix.groups` — such a library finds the options of all groups in front of
  what it finds behind them;
* `Options.given` — what options ask for: the last value of each, and the flags that occur;
* `Options.foldl_add_eq` — adding one occurrence after another comes to that;
* `Options.parse_spelled` — what groups and operands mean is up to the options in them only;
* `CommandLine.getopt_posix` — the library that the program is run with scans this way.
-/

namespace CommandLine

/-! ### Options -/

/-- The options without a value. -/
inductive Flag where
  | tree
  | debug
  | help
  deriving DecidableEq

/-- The options with a value. -/
inductive Setting where
  | config
  | code
  deriving DecidableEq

/-- The letter of a flag, which has no colon behind it in `spec`. -/
def Flag.letter : Flag → Char
  | tree => 't'
  | debug => 'd'
  | help => 'h'

/-- The letter of an option with a value, which has a colon behind it in `spec`. -/
def Setting.letter : Setting → Char
  | config => 'c'
  | code => 'e'

/-- There are no other options. -/
example : spec.toList = [Setting.config.letter, ':', Setting.code.letter, ':',
    Flag.tree.letter, Flag.debug.letter, Flag.help.letter] := by decide

/-- One use of an option. -/
inductive Occurrence where
  | flag (f : Flag)
  | setting (s : Setting) (value : String)
  deriving DecidableEq

/-- The letter of the option, and its value. -/
def Occurrence.found : Occurrence → Char × String
  | flag f => (f.letter, "")
  | setting s value => (s.letter, value)

theorem Flag.letter_ne_dash (f : Flag) : f.letter ≠ '-' := by cases f <;> decide

theorem Setting.letter_ne_dash (s : Setting) : s.letter ≠ '-' := by cases s <;> decide

/-! ### What is known of the library -/

/-- The word of a dash and letters. -/
def dashed (cs : List Char) : String := String.ofList ('-' :: cs)

/-- The word ends the options and is an operand: a lone dash, an empty word, or one that does not
    start with a dash. -/
def IsOperand (w : String) : Prop := w = "-" ∨ w = "" ∨ w.toList.head? ≠ some '-'

/-- The library scans the words of a command line as POSIX has it: from left to right, every word
    with options for itself, until a word ends them.  What comes behind a word with options is
    found as it would be without that word. -/
structure Getopts.Posix (getopts : Getopts) : Prop where
  /-- The name of the program is no option. -/
  name_only (name : String) : getopts [name] spec = .ok ⟨[], 1⟩
  /-- The first operand ends the options. -/
  operand (name : String) {w : String} (ws : List String) (hw : IsOperand w) :
    getopts (name :: w :: ws) spec = .ok ⟨[], 1⟩
  /-- Two dashes end the options, and are no operand. -/
  dashes (name : String) (ws : List String) : getopts (name :: "--" :: ws) spec = .ok ⟨[], 2⟩
  /-- An option without a value may be a word. -/
  flag {name : String} {ws : List String} {found : Found} (f : Flag)
    (h : getopts (name :: ws) spec = .ok found) :
    getopts (name :: dashed [f.letter] :: ws) spec =
      .ok ⟨(f.letter, "") :: found.options, found.next + 1⟩
  /-- It may also share the dash of the options behind it. -/
  clustered {name : String} {c : Char} {cs : List Char} {ws : List String} {found : Found}
    (f : Flag) (hc : c ≠ '-') (h : getopts (name :: dashed (c :: cs) :: ws) spec = .ok found) :
    getopts (name :: dashed (f.letter :: c :: cs) :: ws) spec =
      .ok ⟨(f.letter, "") :: found.options, found.next⟩
  /-- The value of an option is what is behind its letter in the word. -/
  attached {name value : String} {ws : List String} {found : Found} (s : Setting)
    (hvalue : value ≠ "") (h : getopts (name :: ws) spec = .ok found) :
    getopts (name :: dashed (s.letter :: value.toList) :: ws) spec =
      .ok ⟨(s.letter, value) :: found.options, found.next + 1⟩
  /-- If that is nothing, the value is the next word, whatever it looks like. -/
  separate {name : String} {ws : List String} {found : Found} (s : Setting) (value : String)
    (h : getopts (name :: ws) spec = .ok found) :
    getopts (name :: dashed [s.letter] :: value :: ws) spec =
      .ok ⟨(s.letter, value) :: found.options, found.next + 2⟩

/-! ### Groups of options -/

/-- Options behind one dash: any number of flags, and behind them one more flag or an option with
    a value.  The value is in the same word, which it can be unless it is empty, or it is the next
    word. -/
inductive Group where
  /-- Flags only, at least one. -/
  | flags (fs : List Flag) (f : Flag)
  /-- A setting behind them, with its value in the same word. -/
  | attached (fs : List Flag) (s : Setting) (value : String) (h : value ≠ "")
  /-- A setting behind them, with its value in the next word. -/
  | separate (fs : List Flag) (s : Setting) (value : String)

namespace Group

/-- The words of a group. -/
def words : Group → List String
  | flags fs f => [dashed (fs.map Flag.letter ++ [f.letter])]
  | attached fs s value _ => [dashed (fs.map Flag.letter ++ s.letter :: value.toList)]
  | separate fs s value => [dashed (fs.map Flag.letter ++ [s.letter]), value]

/-- The options of a group. -/
def occurrences : Group → List Occurrence
  | flags fs f => fs.map .flag ++ [.flag f]
  | attached fs s value _ => fs.map .flag ++ [.setting s value]
  | separate fs s value => fs.map .flag ++ [.setting s value]

end Group

namespace Getopts.Posix

variable {getopts : Getopts} {name : String} {ws : List String} {found : Found}

/-- Flags in front of another option in its word. -/
theorem flags_clustered (hposix : getopts.Posix) (fs : List Flag) {c : Char} {cs : List Char}
    (hc : c ≠ '-') (h : getopts (name :: dashed (c :: cs) :: ws) spec = .ok found) :
    getopts (name :: dashed (fs.map Flag.letter ++ c :: cs) :: ws) spec =
      .ok ⟨(fs.map .flag).map Occurrence.found ++ found.options, found.next⟩ := by
  induction fs with
  | nil => exact h
  | cons f fs ih =>
    -- the letter behind that of `f` is one of a flag too, or `c`
    obtain ⟨d, ds, hd, hne⟩ : ∃ d ds, fs.map Flag.letter ++ c :: cs = d :: ds ∧ d ≠ '-' := by
      cases fs with
      | nil => exact ⟨c, cs, rfl, hc⟩
      | cons f' fs => exact ⟨f'.letter, _, rfl, f'.letter_ne_dash⟩
    rw [hd] at ih
    rw [List.map_cons, List.cons_append, hd]
    exact hposix.clustered f hne ih

/-- A group is found in front of what is found without it. -/
theorem group (hposix : getopts.Posix) (g : Group) (h : getopts (name :: ws) spec = .ok found) :
    getopts (name :: (g.words ++ ws)) spec =
      .ok ⟨g.occurrences.map Occurrence.found ++ found.options, found.next + g.words.length⟩ := by
  cases g with
  | flags fs f =>
    have hword := hposix.flags_clustered fs f.letter_ne_dash (hposix.flag f h)
    simpa [Group.words, Group.occurrences, Occurrence.found] using hword
  | attached fs s value hvalue =>
    have hword := hposix.flags_clustered fs s.letter_ne_dash (hposix.attached s hvalue h)
    simpa [Group.words, Group.occurrences, Occurrence.found] using hword
  | separate fs s value =>
    have hword := hposix.flags_clustered fs s.letter_ne_dash (hposix.separate s value h)
    simpa [Group.words, Group.occurrences, Occurrence.found] using hword

/-- **Groups are found in front of what is found without them**, one word after the other. -/
theorem groups (hposix : getopts.Posix) (gs : List Group)
    (h : getopts (name :: ws) spec = .ok found) :
    getopts (name :: (gs.flatMap Group.words ++ ws)) spec =
      .ok ⟨(gs.flatMap Group.occurrences).map Occurrence.found ++ found.options,
        found.next + (gs.flatMap Group.words).length⟩ := by
  induction gs with
  | nil => exact h
  | cons g gs ih =>
    have hgroup := hposix.group g ih
    simpa [Nat.add_assoc, Nat.add_comm g.words.length] using hgroup

/-- Operands end the options if the first one can, or if they are behind the word that does, and
    they are what is left. -/
theorem operands (hposix : getopts.Posix) (name : String) {files : List String}
    (h : ws = "--" :: files ∨ ws = files ∧ ∀ w ∈ files.head?, IsOperand w) :
    ∃ n, getopts (name :: ws) spec = .ok ⟨[], n + 1⟩ ∧ ws.drop n = files := by
  rcases h with rfl | ⟨rfl, h⟩
  · exact ⟨1, hposix.dashes name files, rfl⟩
  · cases ws with
    | nil => exact ⟨0, hposix.name_only name, rfl⟩
    | cons w ws => exact ⟨0, hposix.operand name ws (h w rfl), rfl⟩

end Getopts.Posix

/-! ### What the options ask for -/

/-- The value that an occurrence gives to an option. -/
def Occurrence.value? (s : Setting) : Occurrence → Option String
  | flag _ => none
  | setting t value => if t = s then some value else none

/-- The last value that occurrences give to an option, if any. -/
def lastValue (s : Setting) (os : List Occurrence) : String :=
  ((os.filterMap (·.value? s)).getLast?).getD ""

/-- One more occurrence decides the value if it gives one. -/
theorem lastValue_concat (s : Setting) (os : List Occurrence) (o : Occurrence) :
    lastValue s (os ++ [o]) = (o.value? s).getD (lastValue s os) := by
  rw [lastValue, List.filterMap_append]
  cases h : o.value? s <;> simp [h, lastValue]

end CommandLine

namespace Options

open CommandLine

/-- What occurrences of options ask for. -/
def given (os : List Occurrence) : Options where
  config := lastValue .config os
  code := lastValue .code os
  tree := decide (.flag .tree ∈ os)
  debug := decide (.flag .debug ∈ os)
  help := decide (.flag .help ∈ os)

/-- What is asked for with one more occurrence. -/
theorem add_given (os : List Occurrence) (o : Occurrence) :
    (given os).add o.found = given (os ++ [o]) := by
  rcases o with ⟨⟨⟩⟩ | ⟨⟨⟩, value⟩ <;>
    simp [given, add, lastValue_concat, Occurrence.value?, Occurrence.found, Flag.letter,
      Setting.letter]

/-- **Adding one occurrence after another comes to what they ask for.** -/
theorem foldl_add_eq (os : List Occurrence) :
    (os.map Occurrence.found).foldl add {} = given os := by
  -- from the end, as the last occurrence is what decides
  induction os using List.reverseRecOn with
  | nil => rfl
  | append_singleton os o ih =>
    rw [List.map_append, List.foldl_append, ih]
    exact add_given os o

/-- Operands are refused if there is more than one, or if there is one next to code. -/
theorem mapError_operands (o : Options) (files : List String) (hfile : o.file = "") :
    (o.operands files).mapError Misuse.message =
      if 1 < files.length then
        .error ("expected at most one source file, got " ++ Text.ofNat files.length)
      else if files.length = 1 ∧ o.code ≠ "" then
        .error "-e cannot be combined with a source file"
      else
        .ok { o with file := files.headD "" } := by
  match files with
  | [] =>
    rw [if_neg (by simp), if_neg (by simp), List.headD_nil, ← hfile]
    rfl
  | [file] =>
    by_cases hcode : o.code = ""
    · rw [operands, if_pos (by simp [hcode]), if_neg (by simp), if_neg (by simp [hcode])]
      rfl
    · rw [operands, if_neg (by simpa using hcode), if_neg (by simp), if_pos (by simp [hcode])]
      rfl
  | file :: file' :: files =>
    rw [if_pos (by simp)]
    rfl

/-- Behind groups, what is left of the words are the operands. -/
theorem parse_groups {getopts : Getopts} (hposix : getopts.Posix) (name : String)
    (gs : List Group) {rest files : List String}
    (hrest : rest = "--" :: files ∨ rest = files ∧ ∀ w ∈ files.head?, IsOperand w) :
    parse getopts (name :: (gs.flatMap Group.words ++ rest)) =
      (given (gs.flatMap Group.occurrences)).operands files := by
  obtain ⟨n, hfound, rfl⟩ := hposix.operands name hrest
  have hleft : (name :: (gs.flatMap Group.words ++ rest)).drop
      (n + 1 + (gs.flatMap Group.words).length) = rest.drop n := by
    rw [Nat.add_right_comm, List.drop_succ_cons, Nat.add_comm, ← List.drop_drop, List.drop_left]
  rw [parse, hposix.groups gs hfound]
  simp only [hleft, List.append_nil, foldl_add_eq]

/-- **The command line means the same however its options are written.**  Let the library scan
    words as POSIX has it.  Behind any groups that have the same occurrences in them, operands
    after `--`, or the first of which ends the options by itself, are refused if there is more than
    one, or if there is one and the last code is not empty.  Otherwise the command line asks for
    what the occurrences ask for, and for the operand, if there is one. -/
theorem parse_spelled {getopts : Getopts} (hposix : getopts.Posix) (name : String)
    (gs : List Group) {os : List Occurrence} {rest files : List String}
    (hos : gs.flatMap Group.occurrences = os)
    (hrest : rest = "--" :: files ∨ rest = files ∧ ∀ w ∈ files.head?, IsOperand w) :
    (parse getopts (name :: (gs.flatMap Group.words ++ rest))).mapError Misuse.message =
      if 1 < files.length then
        .error ("expected at most one source file, got " ++ Text.ofNat files.length)
      else if files.length = 1 ∧ lastValue .code os ≠ "" then
        .error "-e cannot be combined with a source file"
      else
        .ok { given os with file := files.headD "" } := by
  rw [parse_groups hposix name gs hrest, hos]
  exact mapError_operands (given os) files rfl

end Options

namespace CommandLine

/-! ### The library of the program scans this way -/

section

variable {c : Char} {cs : List Char} {ws : List String} {f : Found}

/-- The specification lists flags without a value. -/
theorem takesValue?_flag (o : Flag) : takesValue? spec.toList o.letter = some false := by
  cases o <;> decide

/-- The specification lists settings with a colon behind the letter, for a value. -/
theorem takesValue?_setting (s : Setting) : takesValue? spec.toList s.letter = some true := by
  cases s <;> decide

/-- A flag is read before what follows it in its word. -/
theorem cluster_flag (o : Flag) (cs : List Char) :
    cluster spec.toList (o.letter :: cs) =
      (cluster spec.toList cs).map fun (os, needy) => ((o.letter, "") :: os, needy) := by
  rw [cluster, takesValue?_flag]

/-- An option with a value takes what is left of its word, or asks for the next word. -/
theorem cluster_setting (s : Setting) (cs : List Char) :
    cluster spec.toList (s.letter :: cs) =
      .ok (if cs.isEmpty then ([], some s.letter) else ([(s.letter, String.ofList cs)], none)) := by
  rw [cluster, takesValue?_setting]

/-- A dash with letters behind it, of which the first is no dash, starts options. -/
theorem scan_dashed (hc : c ≠ '-') (cs : List Char) (ws : List String) :
    scan spec.toList (dashed (c :: cs) :: ws) =
      match cluster spec.toList (c :: cs), ws with
      | .error m, _ => .error m
      | .ok (os, none), ws => (scan spec.toList ws).map (.behind os 1)
      | .ok (_, some c), [] => .error (missingValue c)
      | .ok (os, some c), v :: ws => (scan spec.toList ws).map (.behind (os ++ [(c, v)]) 2) := by
  have hend : ¬ (dashed (c :: cs) == "--") = true := by
    intro heq
    exact hc (List.cons.inj (List.cons.inj (String.ofList_injective (eq_of_beq heq))).2).1
  have hletters : (dashed (c :: cs)).toList = '-' :: c :: cs := String.toList_ofList
  have hoption : isOptionWord (dashed (c :: cs)) = true := by rw [isOptionWord, hletters]; rfl
  conv_lhs => unfold scan
  rw [if_neg hend, if_pos hoption, hletters]
  rfl

/-- A word of one flag. -/
theorem scan_flag (o : Flag) (h : scan spec.toList ws = .ok f) :
    scan spec.toList (dashed [o.letter] :: ws) =
      .ok ⟨(o.letter, "") :: f.options, f.next + 1⟩ := by
  rw [scan_dashed o.letter_ne_dash, cluster_flag, Nat.add_comm]
  exact congrArg (Except.map (Found.behind [(o.letter, "")] 1)) h

/-- One more option in the same words. -/
theorem map_behind_cons {x : Except String Found} {o : Char × String} {os : List (Char × String)}
    {n : Nat} (h : x.map (Found.behind os n) = .ok f) :
    x.map (Found.behind (o :: os) n) = .ok ⟨o :: f.options, f.next⟩ := by
  cases x with
  | error m => cases h
  | ok g =>
    cases h
    rfl

/-- A flag in front of other options in its word. -/
theorem scan_clustered (o : Flag) (hc : c ≠ '-')
    (h : scan spec.toList (dashed (c :: cs) :: ws) = .ok f) :
    scan spec.toList (dashed (o.letter :: c :: cs) :: ws) =
      .ok ⟨(o.letter, "") :: f.options, f.next⟩ := by
  rw [scan_dashed hc] at h
  rw [scan_dashed o.letter_ne_dash, cluster_flag]
  -- both words take a value from the next one, or neither does
  match hcluster : cluster spec.toList (c :: cs), ws, h with
  | .ok (_, none), _, h => exact map_behind_cons h
  | .ok (_, some _), _ :: _, h => exact map_behind_cons h

/-- The value behind the letter of its option. -/
theorem scan_attached (s : Setting) {value : String} (hvalue : value ≠ "")
    (h : scan spec.toList ws = .ok f) :
    scan spec.toList (dashed (s.letter :: value.toList) :: ws) =
      .ok ⟨(s.letter, value) :: f.options, f.next + 1⟩ := by
  rw [scan_dashed s.letter_ne_dash, cluster_setting, if_neg (by simpa using hvalue),
    String.ofList_toList, Nat.add_comm]
  exact congrArg (Except.map (Found.behind [(s.letter, value)] 1)) h

/-- The value in the word behind its option. -/
theorem scan_separate (s : Setting) (value : String) (h : scan spec.toList ws = .ok f) :
    scan spec.toList (dashed [s.letter] :: value :: ws) =
      .ok ⟨(s.letter, value) :: f.options, f.next + 2⟩ := by
  rw [scan_dashed s.letter_ne_dash, cluster_setting, Nat.add_comm]
  exact congrArg (Except.map (Found.behind [(s.letter, value)] 2)) h

/-- An operand does not start with a dash, or is a dash alone. -/
theorem isOptionWord_of_isOperand {w : String} (h : IsOperand w) : isOptionWord w = false := by
  rcases h with rfl | rfl | h
  · rfl
  · rfl
  · rw [isOptionWord]
    split
    · exact absurd (by simp [*]) h
    · rfl

/-- The first operand ends the options. -/
theorem scan_operand {w : String} (h : IsOperand w) (ws : List String) :
    scan spec.toList (w :: ws) = .ok ⟨[], 0⟩ := by
  have hword := isOptionWord_of_isOperand h
  have hne : ¬ (w == "--") = true := by
    intro heq
    rw [eq_of_beq heq] at hword
    exact absurd hword (by decide)
  unfold scan
  rw [if_neg hne, hword]
  rfl

/-- What is found on a command line is found in the words behind the program's name. -/
theorem getopt_eq_ok_iff {name : String} {found : Found} :
    getopt (name :: ws) spec = .ok found ↔
      ∃ f, scan spec.toList ws = .ok f ∧ found = ⟨f.options, f.next + 1⟩ := by
  rw [getopt, List.drop_one, List.tail_cons]
  cases scan spec.toList ws with
  | error m => simp [Except.map]
  | ok f => simp [Except.map, Found.behind, Nat.add_comm, eq_comm]

end

/-- **The library that the program is run with scans words as POSIX has it.** -/
theorem getopt_posix : getopt.Posix where
  name_only _ := rfl
  operand _ _ ws hw := getopt_eq_ok_iff.2 ⟨_, scan_operand hw ws, rfl⟩
  dashes _ _ := rfl
  flag o h := by
    obtain ⟨f, hscan, rfl⟩ := getopt_eq_ok_iff.1 h
    exact getopt_eq_ok_iff.2 ⟨_, scan_flag o hscan, rfl⟩
  clustered o hc h := by
    obtain ⟨f, hscan, rfl⟩ := getopt_eq_ok_iff.1 h
    exact getopt_eq_ok_iff.2 ⟨_, scan_clustered o hc hscan, rfl⟩
  attached s hvalue h := by
    obtain ⟨f, hscan, rfl⟩ := getopt_eq_ok_iff.1 h
    exact getopt_eq_ok_iff.2 ⟨_, scan_attached s hvalue hscan, rfl⟩
  separate s value h := by
    obtain ⟨f, hscan, rfl⟩ := getopt_eq_ok_iff.1 h
    exact getopt_eq_ok_iff.2 ⟨_, scan_separate s value hscan, rfl⟩

end CommandLine

namespace Options

open CommandLine

/-- A value that looks like an option is a value, an operand that does is one behind `--`, and code
    that is taken back by an empty one is no conflict. -/
theorem parse_spelled_code_taken_back :
    let gs : List Group := [.separate [.tree, .debug] .config "-e",
      .attached [.help] .code "pon" (by decide), .separate [] .code ""]
    gs.flatMap Group.words = ["-tdc", "-e", "-hepon", "-e", ""] ∧ getopt.Posix ∧
    (parse getopt ("cod" :: (gs.flatMap Group.words ++ ["--", "-x"]))).mapError Misuse.message =
      .ok { config := "-e", file := "-x", tree := true, debug := true, help := true } :=
  ⟨by decide, getopt_posix, parse_spelled getopt_posix "cod" _ rfl (.inl rfl)⟩

end Options

end Incognita
