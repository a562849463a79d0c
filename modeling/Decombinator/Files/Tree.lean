/-
Files in memory.

A tree holds files by their places, a place being the list of names that lead to it from
the root.  A path leads from the root if it starts with a slash, and from the current
directory otherwise.  It is followed part by part, and each part needs a directory to
start from, so that two dots take back only a part that was there, and a slash at the end
asks for a directory.
-/
import Decombinator.Files
import Decombinator.Text.Lines

namespace Decombinator

/-- The names that lead to a file or a directory from the root. -/
abbrev Place := List String

structure FileTree where
  files : List (Place × String)
  /-- Directories that are there even if no file is in them. -/
  directories : List Place := []
  /-- The current directory. -/
  current : Place := []

namespace FileTree

/-- The number of bytes that a name may have. -/
def maxName : Nat := 255

/-- The number of bytes that a path stays below. -/
def maxPath : Nat := 4096

def isDirectory (t : FileTree) (p : Place) : Bool :=
  (t.current :: t.directories ++ t.files.map (·.1.dropLast)).any p.isPrefixOf

def text? (t : FileTree) (p : Place) : Option String :=
  t.files.lookup p

/-- The parts of a path, and the directory it leads from. -/
def start (t : FileTree) (path : String) : Place × List String :=
  let cs := path.toList
  (if cs.head? = some '/' then [] else t.current, (Text.splitChars '/' cs).map String.ofList)

/-- Follows one part of a path. -/
def step (t : FileTree) (p : Place) (part : String) : Except FileError Place :=
  let next := p ++ [part]
  if !t.isDirectory p then .error .notDirectory
  else if part = "" ∨ part = "." then .ok p
  else if part = ".." then .ok p.dropLast
  else if maxName < part.utf8ByteSize then .error .nameTooLong
  else if t.isDirectory next || (t.text? next).isSome then .ok next
  else .error .missing

/-- The text of the file at a path. -/
def read (t : FileTree) : Files := fun path => do
  if path = "" then throw .missing
  if maxPath ≤ path.utf8ByteSize then throw .nameTooLong
  let (origin, parts) := t.start path
  let p ← parts.foldlM t.step origin
  match t.text? p with
  | some text => pure text
  | none => throw .isDirectory

/-- The tree after a text was written to a path.  Nothing changes if there can be no file at
that path. -/
def write (t : FileTree) (path text : String) : FileTree :=
  let (origin, parts) := t.start path
  let name := parts.getLast?.getD ""
  match parts.dropLast.foldlM t.step origin with
  | .error _ => t
  | .ok p =>
    let place := p ++ [name]
    if maxPath ≤ path.utf8ByteSize || maxName < name.utf8ByteSize || ["", ".", ".."].contains name ||
        !t.isDirectory p || t.isDirectory place then t
    else { t with files := (place, text) :: t.files.filter (·.1 != place) }

end FileTree

end Decombinator
