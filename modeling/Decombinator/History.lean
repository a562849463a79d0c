/-
The history of a session: what was entered, the oldest first.

Only the last thousand entries are kept, and an entry that repeats the one before it is
not added.  On file an entry is a line.  Reading stops at a line that is not read in one part.
Entries are escaped texts, so that they are the same only if they were entered the same.
-/
import Decombinator.Text.Escaped
import Decombinator.Text.Input

namespace Decombinator

abbrev History := List String

namespace History

def limit : Nat := 1000

/-- The last entries, as many as are kept. -/
def keep (h : History) : History :=
  List.drop (h.length - limit) h

/-- Adds an entry, unless it is the last one again. -/
def add (h : History) (entry : String) : History :=
  if h.getLast? = some entry then h else keep (h ++ [entry])

/-- The entries in a text. -/
def read (text : String) : History :=
  keep (((Text.inputLines text).takeWhile (·.ended)).map fun line => Text.Escaped.ofRaw line.text)

/-- The entries as they show, one to a line. -/
def write (h : History) : String :=
  String.join (List.map (Text.Escaped.shown · ++ "\n") h)

end History

end Decombinator
