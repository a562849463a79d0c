/-
Paths, cleaned of what makes no difference.

Repeated slashes and single dots are dropped, and two dots take the part before them
away, as far as there is one.  Two dots at the start of a path stay, unless it starts at
the root.
-/
import Decombinator.Text.Lines

namespace Decombinator.Path

/-- Adds a part to the parts so far, the last of which comes first. -/
def push (rooted : Bool) (parts : List String) (part : String) : List String :=
  if part = "" ∨ part = "." then parts
  else if part = ".." then
    match parts with
    | [] => if rooted then [] else [".."]
    | last :: front => if last = ".." then ".." :: parts else front
  else part :: parts

def clean (path : String) : String :=
  let cs := path.toList
  let rooted := cs.head? == some '/'
  let parts := ((Text.splitChars '/' cs).map String.ofList).foldl (push rooted) []
  let body := String.intercalate "/" parts.reverse
  if rooted then "/" ++ body else if body = "" then "." else body

/-- The path of a file in a directory. -/
def join (dir file : String) : String :=
  clean (dir ++ "/" ++ file)

end Decombinator.Path
