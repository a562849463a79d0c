/-
Files, as far as a command sees them: a text for each path, or the reason why there is
none.
-/
namespace Decombinator

/-- Why a file has no text. -/
inductive FileError
  | missing
  /-- A part of the path that should be a directory is none. -/
  | notDirectory
  | nameTooLong
  | denied
  /-- A directory can be opened, but not read. -/
  | isDirectory
  | unreadable (reason : String)
  deriving DecidableEq

namespace FileError

/-- Whether the file could at least be opened. -/
def opened : FileError → Bool
  | isDirectory | unreadable _ => true
  | _ => false

def reason : FileError → String
  | missing => "no such file or directory"
  | notDirectory => "not a directory"
  | nameTooLong => "file name too long"
  | denied => "permission denied"
  | isDirectory => "is a directory"
  | unreadable reason => reason

def message (path : String) (e : FileError) : String :=
  (if e.opened then "read " else "open ") ++ path ++ ": " ++ e.reason

end FileError

/-- The texts of files by their paths. -/
abbrev Files := String → Except FileError String

end Decombinator
