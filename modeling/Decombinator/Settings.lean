/-
Settings from the environment.

A variable that is empty counts as one that is not set.  The command line can override
what is set here.
-/
import Decombinator.Dictionary.Builtin
import Decombinator.Dictionary.Reader
import Decombinator.Files
import Decombinator.Path

namespace Decombinator

/-! ### The dictionary -/

/-- Why a dictionary could not be loaded. -/
inductive LoadError
  | file (path : String) (e : FileError)
  | content (e : Dictionary.Error)

def LoadError.message : LoadError → String
  | file path e => (if e.opened then "names: decode: " else "") ++ e.message path
  | content e => e.message

/-- The dictionary at a path.  The empty path stands for the built-in one. -/
def Dictionary.load (files : Files) (path : String) : Except LoadError Dictionary :=
  if path = "" then .ok Dictionary.builtin
  else
    match files path with
    | .error e => .error (.file path e)
    | .ok text =>
      match Dictionary.read text with
      | .error e => .error (.content e)
      | .ok d => .ok d

/-! ### Settings -/

structure Settings where
  debug : Bool
  /-- The path of the dictionary. -/
  names : String
  maxStackMb : Int64
  /-- The path of the file that keeps what was entered. -/
  history : String

namespace Settings

/-- The words that switch a setting on, in lower case; each may also be capitalised or all
in upper case. -/
def affirmations : List String :=
  ["absolutely", "affirmative", "enable", "enabled", "positive", "t", "true", "y", "yes"]

def isAffirmative (word : String) : Bool :=
  word == "1" ||
    affirmations.any fun w => word == w || word == w.capitalize || word == w.toUpper

def defaultStackMb : Int64 := 1024

/-- The file in the home directory, if there is one, that keeps what was entered. -/
def defaultHistory (home : String) : String :=
  if home = "" then ".decompile_history" else Path.join home ".decompile_history"

/-- The settings in an environment, which gives the empty text for variables not set. -/
def ofEnv (env : String → String) : Settings where
  debug := isAffirmative (env "DECOMPILE_DEBUG")
  names := env "DECOMPILE_NAMES"
  maxStackMb := (Text.readInt (env "DECOMPILE_MAX_STACK_MB")).getD defaultStackMb
  history :=
    if env "DECOMPILE_HISTORY" = "" then defaultHistory (env "HOME") else env "DECOMPILE_HISTORY"

/-- The stack in bytes, at 64 bits.  Only a positive number of megabytes is taken at its
word. -/
def maxStackBytes (s : Settings) : Int64 :=
  (if s.maxStackMb ≤ 0 then defaultStackMb else s.maxStackMb) <<< 20

end Settings

end Decombinator
