/-
Lines of a text.

Lines are what stands between line feeds, so a text has one more line than it has line
feeds.  Carriage returns at the end of a line belong to its ending and are trimmed.
-/
namespace Decombinator.Text

def splitChars (sep : Char) : List Char → List (List Char)
  | [] => [[]]
  | c :: cs =>
    if c = sep then [] :: splitChars sep cs
    else
      match splitChars sep cs with
      | [] => [[c]]
      | line :: lines => (c :: line) :: lines

/-- The lines of a text, endings not trimmed. -/
def lines (text : String) : List String :=
  (splitChars '\n' text.toList).map String.ofList

/-- The line without the carriage returns at its end. -/
def trimReturns (line : String) : String :=
  String.ofList (line.toList.reverse.dropWhile (· == '\r')).reverse

end Decombinator.Text
