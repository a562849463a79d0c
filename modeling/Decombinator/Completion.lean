/-
Completing the last word of a line.

A word is completed to the keywords and then to the dictionary's references that start
with it.  Only spaces and tabs end a word here.
-/
import Decombinator.Dictionary
import Decombinator.Token

namespace Decombinator.Completion

def endsWord (c : Char) : Bool :=
  c == ' ' || c == '\t'

/-- What can be completed to. -/
def candidates (dict : Dictionary) : List String :=
  Token.keywords.map Prod.fst ++ dict.refs

/-- The line with its last word completed, in every way there is. -/
def complete (dict : Dictionary) (line : String) : List String :=
  let reversed := line.toList.reverse
  let word := (reversed.takeWhile (!endsWord ·)).reverse
  let before := (reversed.dropWhile (!endsWord ·)).reverse
  if word.isEmpty then []
  else
    ((candidates dict).filter fun w => word.isPrefixOf w.toList).map fun w =>
      String.ofList before ++ w

end Decombinator.Completion
