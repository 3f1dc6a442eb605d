import Incognita.Eval
import Incognita.Log

namespace Incognita

/-!
# Settings — how programs are run

* `Settings` — the settings, each with its default;
* `Settings.Fault`, `Settings.fault?` — what is wrong with settings, the depth
  before the level;
* `Settings.level`, `Settings.limit` — the settings as they are used: an unknown
  level and a depth that is not positive fall back to the defaults.
-/

/-- The settings. `path` is the file they were read from. -/
structure Settings where
  path : String := ""
  maxDepth : Int := Eval.defaultLimit
  logLevel : String := Log.Level.warning.name
  color : Bool := true
  historyFile : String := ""
  deriving DecidableEq, Repr, Inhabited

namespace Settings

/-- The settings used when nothing else is asked for. -/
def default : Settings := {}

/-- What is wrong with settings. -/
inductive Fault where
  | depthNotPositive (depth : Int)
  | unknownLevel (level : String)
  deriving DecidableEq, Repr

/-- The wording of a fault. -/
def Fault.message : Fault → String
  | depthNotPositive depth => "max_depth must be positive: " ++ Text.ofInt depth
  | unknownLevel level => "unknown log_level: " ++ level

/-- The first fault of settings, if there is one. -/
def fault? (s : Settings) : Option Fault :=
  if s.maxDepth ≤ 0 then some (.depthNotPositive s.maxDepth)
  else if (Log.Level.ofName? s.logLevel).isNone then some (.unknownLevel s.logLevel)
  else none

/-- The level that is asked for, or that of warnings when it is unknown. -/
def level (s : Settings) : Log.Level := (Log.Level.ofName? s.logLevel).getD .warning

/-- How deeply calls may be nested. -/
def limit (s : Settings) : Nat := Eval.limitOf s.maxDepth

end Settings

end Incognita
